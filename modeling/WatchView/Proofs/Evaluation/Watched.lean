import Mathlib.Data.List.Forall2
import WatchView.Evaluation.Fill
import WatchView.Proofs.Evaluation.Attempts
/-!
# Evaluation under watch

To tell what goes on during a longer piece of work, the debugger is watched: it
answers as it does and notes down every call. Other things may be noted between
the calls, so the notes are of any kind that has calls among it. Work under watch
does what it does without, and only adds to the notes (`Watch.Follows`). This
holds of work that is made of parts if it holds of the parts, and so of evaluation
(`Evaluator.follows_evaluate`).
-/

namespace WatchView

variable {σ ν μ α β ε S S' : Type}

/-! ## Work under watch -/

/-- States with notes and states without. -/
structure Watch (S' S μ : Type) where
  /-- A state with notes is otherwise a state without. -/
  same : S' → S → Prop
  /-- What is noted down. -/
  notes : S' → List μ
  /-- What work may add to the notes. -/
  fits : List μ → Prop
  fits_nil : fits []
  fits_append : ∀ {first rest}, fits first → fits rest → fits (first ++ rest)

namespace Watch

variable (w : Watch S' S μ)

/-- Work that does under watch what it does without, and adds to the notes. -/
def Follows (watched : StateM S' α) (act : StateM S α) : Prop :=
  ∀ p s, w.same p s → ∃ added, w.fits added ∧ (watched p).1 = (act s).1 ∧
    w.same (watched p).2 (act s).2 ∧ w.notes (watched p).2 = w.notes p ++ added

variable {w}

theorem follows_pure (a : α) : w.Follows (pure a) (pure a) := fun p _ same =>
  ⟨[], w.fits_nil, rfl, same, (List.append_nil (w.notes p)).symm⟩

/-- What is so of the answers of the first part may be used for the second. -/
theorem Follows.bind_of {watched : StateM S' α} {act : StateM S α} {watched' : α → StateM S' β}
    {next : α → StateM S β} {P : α → Prop} (first : w.Follows watched act)
    (given : ∀ p s, w.same p s → P (act s).1) (rest : ∀ a, P a → w.Follows (watched' a) (next a)) :
    w.Follows (watched >>= watched') (act >>= next) := by
  intro p s same
  obtain ⟨added, fits, result, same', noted⟩ := first p s same
  obtain ⟨added', fits', result', same'', noted'⟩ :=
    rest (act s).1 (given p s same) _ _ same'
  refine ⟨added ++ added', w.fits_append fits fits', ?_, ?_, ?_⟩
  · rw [bind_apply, bind_apply, result, result']
  · rw [bind_apply, bind_apply, result]
    exact same''
  · rw [bind_apply, result, noted', noted, List.append_assoc]

theorem Follows.bind {watched : StateM S' α} {act : StateM S α} {watched' : α → StateM S' β}
    {next : α → StateM S β} (first : w.Follows watched act)
    (rest : ∀ a, w.Follows (watched' a) (next a)) :
    w.Follows (watched >>= watched') (act >>= next) :=
  first.bind_of (P := fun _ => True) (fun _ _ _ => trivial) fun a _ => rest a

/-- What is read off a state is the same under watch, if the notes do not matter. -/
theorem follows_get_bind {watched : S' → StateM S' α} {next : S → StateM S α}
    (rest : ∀ p s, w.same p s → w.Follows (watched p) (next s)) :
    w.Follows (get >>= watched) (get >>= next) :=
  fun p s same => rest p s same p s same

end Watch

/-- A text is put together under watch as the text behind it is made. -/
theorem Watch.Follows.joined {w : Watch S' S μ} {watched : StateM S' (Except ε String)}
    {act : StateM S (Except ε String)} (h : w.Follows watched act) (text : String) :
    w.Follows
      (do
        match ← watched with
        | .error e => pure (.error e)
        | .ok rest => pure (.ok (text ++ rest)) : StateM S' (Except ε String))
      (do
        match ← act with
        | .error e => pure (.error e)
        | .ok rest => pure (.ok (text ++ rest)) : StateM S (Except ε String)) := by
  refine h.bind fun rest => ?_
  cases rest with
  | error e => exact Watch.follows_pure _
  | ok rest => exact Watch.follows_pure _

/-- The expressions of a template. -/
def Template.expressions (template : String) : List String :=
  (parts template).filterMap fun
    | .literal _ => none
    | .placeholder expression => some (String.ofList expression)

/-- A template is filled under watch as its expressions are replaced. -/
theorem Template.follows_fill {w : Watch S' S μ}
    {watched : String → StateM S' (Except ε String)} {hole : String → StateM S (Except ε String)}
    {template : String}
    (h : ∀ expression ∈ expressions template, w.Follows (watched expression) (hole expression)) :
    w.Follows (fill watched template) (fill hole template) := by
  have filled (pieces : List Part)
      (h : ∀ expression, .placeholder expression ∈ pieces →
        w.Follows (watched (String.ofList expression)) (hole (String.ofList expression))) :
      w.Follows (fillParts watched pieces) (fillParts hole pieces) := by
    induction pieces with
    | nil => exact Watch.follows_pure _
    | cons piece pieces ih =>
      have ih := ih fun expression mem => h expression (List.mem_cons_of_mem piece mem)
      cases piece with
      | literal text => exact ih.joined _
      | placeholder expression =>
        refine (h expression List.mem_cons_self).bind fun text => ?_
        cases text with
        | error e => exact Watch.follows_pure _
        | ok text => exact ih.joined text
  unfold fill
  split
  · exact Watch.follows_pure _
  · exact filled _ fun expression mem => h _ (List.mem_filterMap.mpr ⟨_, mem, rfl⟩)

/-! ## The debugger under watch -/

namespace Debugger

variable (note : Call σ ν → μ)

/-- Work that is noted down as a call. -/
def notedAs (exchange : α → Exchange ν) (act : StateM σ α) : StateM (σ × List μ) α := fun p =>
  ((act p.1).1, (act p.1).2, p.2 ++ [note ⟨exchange (act p.1).1, p.1, (act p.1).2⟩])

/-- The debugger with notes of the calls in its state. -/
def watching (d : Debugger σ ν) : Debugger (σ × List μ) ν where
  facts p := d.facts p.1
  pointee? p := d.pointee? p.1
  snapshot? p := d.snapshot? p.1
  text p := d.text p.1
  mightHaveChildren p := d.mightHaveChildren p.1
  children p := d.children p.1
  fast v e name scratch := notedAs note (.fast v e name scratch) (d.fast v e name scratch)
  full v e name := notedAs note (.full v e name) (d.full v e name)
  path v e := notedAs note (.path v e) (d.path v e)

end Debugger

/-- The states of a debugger under watch: nothing but calls is noted. -/
def Watch.calls (note : Call σ ν → μ) : Watch (σ × List μ) σ μ where
  same p s := p.1 = s
  notes p := p.2
  fits added := ∀ m ∈ added, ∃ c, m = note c
  fits_nil := List.forall_mem_nil _
  fits_append first rest := List.forall_mem_append.mpr ⟨first, rest⟩

namespace Variable

variable (note : Call σ ν → μ) (d : Debugger σ ν) (p : σ × List μ)

theorem facts_watching :
    ∀ v : Variable ν, v.facts (d.watching note).toInspector p = v.facts d.toInspector p.1
  | debugger _ => rfl
  | failure .. => rfl
  | renamed inner .. => by simp only [facts, facts_watching inner]
  | ruled inner => by simp only [facts, facts_watching inner]
  | asChild inner _ => by simp only [facts, facts_watching inner]
  | more .. => rfl
  | synthetic owner .. => by simp only [facts, facts_watching owner]

theorem followed_watching (v : Variable ν) :
    v.followed (d.watching note).toInspector p = v.followed d.toInspector p.1 := by
  simp only [followed, isIndirect, facts_watching]
  rfl

end Variable

/-! ## Evaluation -/

namespace Evaluator

open Watch

/-- The evaluator with notes of the calls in the debugger's state. -/
def watching (note : Call σ ν → μ) (ev : Evaluator σ ν) : Evaluator (σ × List μ) ν :=
  ⟨ev.debugger.watching note, ev.strategy⟩

section

variable (note : Call σ ν → μ)

theorem follows_notedAs (exchange : α → Exchange ν) (act : StateM σ α) :
    (calls note).Follows (Debugger.notedAs note exchange act) act := by
  rintro p _ rfl
  refine ⟨_, ?_, rfl, rfl, rfl⟩
  intro m mem
  exact ⟨_, List.mem_singleton.mp mem⟩

variable (ev : Evaluator σ ν) (e : WatchExpr) (v : Variable ν) (scope : Scope (Variable ν))
  (name : Option String)

theorem follows_accept (answer : Answer ν) :
    (calls note).Follows ((ev.watching note).accept answer) (ev.accept answer) := by
  refine follows_get_bind ?_
  rintro p _ rfl
  have facts : (ev.watching note).debugger.facts p = ev.debugger.facts p.1 := rfl
  rw [facts]
  cases (ev.debugger.facts p.1 answer.handle).error with
  | none => exact follows_pure _
  | some message => exact follows_pure _

theorem follows_tryFast :
    (calls note).Follows ((ev.watching note).tryFast e v scope name)
      (ev.tryFast e v scope name) := by
  refine follows_get_bind ?_
  rintro p _ rfl
  have target : v.followed (ev.watching note).debugger.toInspector p =
      v.followed ev.debugger.toInspector p.1 := v.followed_watching note ev.debugger p
  rw [target]
  refine (follows_notedAs note _ _).bind fun said => ?_
  cases said with
  | error failure => exact follows_pure _
  | ok handle => exact ev.follows_accept note _

theorem follows_tryFull :
    (calls note).Follows ((ev.watching note).tryFull e v name) (ev.tryFull e v name) := by
  refine follows_get_bind ?_
  rintro p _ rfl
  have target : v.followed (ev.watching note).debugger.toInspector p =
      v.followed ev.debugger.toInspector p.1 := v.followed_watching note ev.debugger p
  rw [target]
  refine (follows_notedAs note _ _).bind fun said => ?_
  cases said with
  | error message => exact follows_pure _
  | ok handle => exact ev.follows_accept note _

theorem follows_tryPath :
    (calls note).Follows ((ev.watching note).tryPath e v name) (ev.tryPath e v name) := by
  refine follows_get_bind ?_
  rintro p _ rfl
  have path : asPath (ev.watching note).debugger.toInspector p v e =
      asPath ev.debugger.toInspector p.1 v e := by
    unfold asPath
    rw [show v.facts (ev.watching note).debugger.toInspector p = _ from
      v.facts_watching note ev.debugger p]
  rw [path]
  dsimp only
  split
  · refine (follows_notedAs note _ _).bind fun said => ?_
    cases said with
    | none => exact follows_pure _
    | some handle => exact ev.follows_accept note _
  · exact follows_pure _

/-- Attempts that are made one after the other. -/
theorem follows_tryEach {watched : List (StateM (σ × List μ) (Attempt ν))}
    {acts : List (StateM σ (Attempt ν))} (h : List.Forall₂ (calls note).Follows watched acts) :
    (calls note).Follows (tryEach watched) (tryEach acts) := by
  induction h with
  | nil => exact follows_pure _
  | cons first _ ih =>
    refine first.bind fun attempt => ?_
    cases attempt with
    | found answer => exact follows_pure _
    | refused reason => exact follows_pure _
    | missed reason =>
      refine ih.bind fun others => ?_
      cases others with
      | ok answer => exact follows_pure _
      | error reasons => exact follows_pure _

theorem follows_attempts (scratch : Bool) :
    List.Forall₂ (calls note).Follows ((ev.watching note).attempts scratch e v scope name)
      (ev.attempts scratch e v scope name) := by
  have planned {watched : StateM (σ × List μ) (Attempt ν)} {act : StateM σ (Attempt ν)}
      (h : (calls note).Follows watched act) (asked : Prop) [Decidable asked] :
      List.Forall₂ (calls note).Follows (if asked then [watched] else [])
        (if asked then [act] else []) := by
    split
    · exact .cons h .nil
    · exact .nil
  refine List.rel_append (List.rel_append ?_ ?_) ?_
  · exact planned (ev.follows_tryFast note e v scope name) _
  · exact planned (ev.follows_tryPath note e v name) _
  · exact planned (ev.follows_tryFull note e v name) _

theorem follows_evaluateAs (scratch : Bool) :
    (calls note).Follows ((ev.watching note).evaluateAs e scratch v scope name)
      (ev.evaluateAs e scratch v scope name) := by
  refine (follows_tryEach note (ev.follows_attempts note e v scope name scratch)).bind
    fun tried => ?_
  cases tried with
  | error reasons => exact follows_pure _
  | ok answer =>
    dsimp only
    split
    · refine follows_get_bind ?_
      rintro p _ rfl
      exact follows_pure _
    · exact follows_pure _

/-- An expression is evaluated as it is without a watch, the expression of its size
too. -/
theorem follows_evaluate (expression : String) (name : Option String) :
    (calls note).Follows ((ev.watching note).evaluate expression v scope name)
      (ev.evaluate expression v scope name) := by
  rw [evaluate_eq, evaluate_eq]
  refine Follows.bind ?_ fun spec => ev.follows_evaluateAs note _ v scope name _
  cases pending : (WatchExpr.parse expression).spec with
  | plain text => exact follows_pure _
  | sized n suffix => exact follows_pure _
  | pending size suffix =>
    refine Follows.bind (follows_evaluate size none) fun result => ?_
    cases result with
    | error e => exact follows_pure _
    | ok answer =>
      refine follows_get_bind ?_
      rintro p _ rfl
      exact follows_pure _
termination_by expression.length
decreasing_by exact WatchExpr.length_pending_lt pending

theorem follows_holds (condition : Option String) :
    (calls note).Follows ((ev.watching note).holds condition v scope)
      (ev.holds condition v scope) := by
  unfold holds
  split
  · exact follows_pure _
  · split
    · exact follows_pure _
    · refine (ev.follows_evaluate note v scope _ none).bind fun result => ?_
      cases result with
      | error e => exact follows_pure _
      | ok answer =>
        refine follows_get_bind ?_
        rintro p _ rfl
        exact follows_pure _

theorem follows_applies (guard : Guard) :
    (calls note).Follows ((ev.watching note).applies guard v scope)
      (ev.applies guard v scope) := by
  refine follows_get_bind ?_
  rintro p _ rfl
  have facts : v.facts (ev.watching note).debugger.toInspector p =
      v.facts ev.debugger.toInspector p.1 := v.facts_watching note ev.debugger p
  rw [facts]
  dsimp only
  split
  · exact ev.follows_holds note v scope _
  · exact follows_pure _

end

end Evaluator

end WatchView
