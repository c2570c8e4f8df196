import WatchView.Proofs.Bounded
import WatchView.Proofs.Evaluation.Watched
import WatchView.View
/-!
# Levels of display strings

While a text is made, a counter in the session tells how many display strings are being
formatted. Every value in a template is formatted on a level of its own: the counter goes
up, the templates of the value are looked at unless the counter is beyond the limit, and
the counter goes down again, whatever came of it. `Engine.countedText` makes a text that
way, of the texts of the values in it. That this comes to an end is not to be seen from
it, since a rule may show a value by itself.

`Engine.valueText` has the levels that are left for an argument, so it ends. Both are the
same, and to tell what goes on meanwhile the work is watched: the notes show the calls of
the debugger, and the levels as they are entered and left (`Engine.display_levels`).
-/

namespace WatchView

variable {σ ν α : Type}

/-! ## What is noted down -/

/-- What goes on while a text is made. -/
inductive Note (σ ν : Type) where
  /-- The debugger was asked to evaluate an expression. -/
  | asked (call : Call σ ν)
  /-- A level was entered; the counter shows so many afterwards. -/
  | opened (depth : Nat)
  /-- A level was left with a text or an error, and the counter shows so many
  afterwards. -/
  | closed (depth : Nat) (text : Except EvalError String)

mutual

/-- What is noted down of one level, entered while the counter shows `depth`, that
gives `text`. -/
inductive Level (max : Nat) : Nat → String → List (Note σ ν) → Prop
  /-- A level beyond the limit is left as soon as it is entered. -/
  | tooDeep {depth : Nat} : max ≤ depth →
      Level max depth Engine.tooDeep
        [.opened (depth + 1), .closed depth (.ok Engine.tooDeep)]
  /-- A level within the limit holds calls and levels one deeper. If it is left with a
  text, it gives that. -/
  | within {depth : Nat} {text : String} {inside : List (Note σ ν)}
      (outcome : Except EvalError String) :
      depth < max → Levels max (depth + 1) inside → (∀ made, outcome = .ok made → text = made) →
      Level max depth text (.opened (depth + 1) :: (inside ++ [.closed depth outcome]))

/-- What is noted down while the counter shows `depth`: calls of the debugger, and levels
that are entered and left again. -/
inductive Levels (max : Nat) : Nat → List (Note σ ν) → Prop
  | done {depth : Nat} : Levels max depth []
  | asked {depth : Nat} {rest : List (Note σ ν)} (call : Call σ ν) :
      Levels max depth rest → Levels max depth (.asked call :: rest)
  | level {depth : Nat} {text : String} {notes rest : List (Note σ ν)} :
      Level max depth text notes → Levels max depth rest → Levels max depth (notes ++ rest)

end

variable {max depth : Nat} {text : String} {notes notes' : List (Note σ ν)}

theorem Levels.append : {notes : List (Note σ ν)} → Levels max depth notes →
    Levels max depth notes' → Levels max depth (notes ++ notes')
  | _, .done, h' => h'
  | _, .asked call rest, h' => .asked call (rest.append h')
  | _, .level first others, h' => by
    rw [List.append_assoc]
    exact .level first (others.append h')

theorem levels_of_calls (h : ∀ note ∈ notes, ∃ call, note = Note.asked call) :
    Levels max depth notes := by
  induction notes with
  | nil => exact .done
  | cons note notes ih =>
    obtain ⟨⟨call, rfl⟩, others⟩ := List.forall_mem_cons.mp h
    exact .asked call (ih others)

theorem Level.levels (h : Level max depth text notes) : Levels max depth notes := by
  rw [← List.append_nil notes]
  exact .level h .done

/-! ## Sessions with notes -/

/-- The session with notes in the debugger's state and a counter of its own. -/
def Session.watched (s : Session σ ν) (depth : Nat) (log : List (Note σ ν)) :
    Session (σ × List (Note σ ν)) ν where
  target := (s.target, log)
  book := s.book
  depth := depth
  scratchCount := s.scratchCount
  listings := s.listings

/-- Sessions with notes, while the counter stays at a depth. What a session without
notes counts does not matter. -/
def Watch.levels (max depth : Nat) :
    Watch (Session (σ × List (Note σ ν)) ν) (Session σ ν) (Note σ ν) where
  same p s := ∃ log, p = s.watched depth log
  notes p := p.target.2
  fits := Levels max depth
  fits_nil := .done
  fits_append := Levels.append

open Watch

/-- In full: what is done under watch is done without, and noted down. -/
theorem Watch.Follows.exists_added {watched : Run (σ × List (Note σ ν)) ν α} {act : Run σ ν α}
    (h : (levels max depth).Follows watched act) (s : Session σ ν) (log : List (Note σ ν)) :
    ∃ added, Levels max depth added ∧
      watched (s.watched depth log) = ((act s).1, (act s).2.watched depth (log ++ added)) := by
  obtain ⟨added, fits, result, ⟨log', same⟩, noted⟩ := h _ s ⟨log, rfl⟩
  refine ⟨added, fits, Prod.ext result ?_⟩
  rw [same] at noted ⊢
  exact congrArg _ noted

theorem follows_of_added {watched : Run (σ × List (Note σ ν)) ν α} {act : Run σ ν α}
    (h : ∀ s log, ∃ added, Levels max depth added ∧
      watched (s.watched depth log) = ((act s).1, (act s).2.watched depth (log ++ added))) :
    (levels max depth).Follows watched act := by
  rintro _ s ⟨log, rfl⟩
  obtain ⟨added, fits, same⟩ := h s log
  rw [same]
  exact ⟨added, fits, rfl, ⟨_, rfl⟩, rfl⟩

/-- Work on the debugger. -/
theorem follows_target {watched : StateM (σ × List (Note σ ν)) α} {act : StateM σ α}
    (h : (calls Note.asked).Follows watched act) :
    (levels max depth).Follows (liftM watched : Run (σ × List (Note σ ν)) ν α)
      (liftM act : Run σ ν α) := by
  refine follows_of_added fun s log => ?_
  obtain ⟨added, fits, result, same, noted⟩ := h (s.target, log) s.target rfl
  refine ⟨added, levels_of_calls fits, Prod.ext result ?_⟩
  have target : (watched (s.target, log)).2 = ((act s.target).2, log ++ added) :=
    Prod.ext same noted
  calc ((liftM watched : Run (σ × List (Note σ ν)) ν α) (s.watched depth log)).2
    _ = { s.watched depth log with target := (watched (s.target, log)).2 } := rfl
    _ = ((liftM act : Run σ ν α) s).2.watched depth (log ++ added) := by rw [target]; rfl

theorem Session.eq_of_watched {s t : Session σ ν} {log log' : List (Note σ ν)}
    (h : s.watched depth log = t.watched depth log') (d : Nat) :
    { s with depth := d } = { t with depth := d } := by
  injection h with target book _ scratchCount listings
  rw [Session.mk.injEq]
  exact ⟨congrArg Prod.fst target, book, rfl, scratchCount, listings⟩

/-- What the session counts does not matter for work that can be watched. -/
theorem Watch.Follows.apply_withDepth {watched : Run (σ × List (Note σ ν)) ν α} {act : Run σ ν α}
    (h : (levels max depth).Follows watched act) (s : Session σ ν) (d : Nat) :
    ∃ t, act { s with depth := d } = ((act s).1, t) ∧
      ∀ d', { t with depth := d' } = { (act s).2 with depth := d' } := by
  obtain ⟨added, -, same⟩ := h.exists_added s []
  obtain ⟨added', -, same'⟩ := h.exists_added { s with depth := d } []
  obtain ⟨result, session⟩ := Prod.mk.inj (same'.symm.trans same)
  exact ⟨(act { s with depth := d }).2, Prod.ext result rfl,
    fun d' => Session.eq_of_watched session d'⟩

namespace Engine

open Bounded

/-- The engine with notes in the debugger's state. -/
def watching (engine : Engine σ ν) : Engine (σ × List (Note σ ν)) ν where
  debugger := engine.debugger.watching .asked
  options := engine.options

variable (engine : Engine σ ν) (kind : TextKind)

/-! ## The parts under watch -/

theorem facts_watched (v : Variable ν) (s : Session σ ν) (log : List (Note σ ν)) :
    engine.watching.facts v (s.watched depth log) =
      ((engine.facts v s).1, (engine.facts v s).2.watched depth log) :=
  congrArg (·, s.watched depth log) (v.facts_watching _ engine.debugger (s.target, log))

theorem findRule_watched (v : Variable ν) (s : Session σ ν) (log : List (Note σ ν)) :
    engine.watching.findRule v (s.watched depth log) =
      ((engine.findRule v s).1, (engine.findRule v s).2.watched depth log) := by
  rw [findRule, bind_apply, facts_watched]
  rfl

/-- Finding the templates asks nothing. -/
theorem templatesFor_watched (v : Variable ν) (s : Session σ ν) (log : List (Note σ ν)) :
    engine.watching.templatesFor kind v (s.watched depth log) =
      ((engine.templatesFor kind v s).1, (engine.templatesFor kind v s).2.watched depth log) := by
  rw [templatesFor, templatesFor, bind_apply, facts_watched, bind_apply]
  split
  · rfl
  · rw [bind_apply, findRule_watched, bind_apply]
    cases (engine.findRule v (engine.facts v s).2).1 with
    | none => rfl
    | some m => rfl

omit engine in
/-- What follows a template that was looked at. -/
theorem follows_decided {S S' μ : Type} {w : Watch S' S μ}
    {watched : StateM S' (Except EvalError (Option String))}
    {rest : StateM S (Except EvalError (Option String))} (h : w.Follows watched rest)
    (optional : Bool) (text : Except EvalError (Option String)) :
    w.Follows
      (do
        match text with
        | .ok none => watched
        | .ok (some text) => return .ok (some text)
        | .error e => if optional then watched else return .error e)
      (do
        match text with
        | .ok none => rest
        | .ok (some text) => return .ok (some text)
        | .error e => if optional then rest else return .error e) := by
  rcases text with e | _ | text
  · dsimp only
    split
    · exact h
    · exact follows_pure _
  · exact h
  · exact follows_pure _

/-- The text of an expression in a template, with `hole` for the texts of values. -/
def holeText (hole : Answer ν → Run σ ν String) (v : Variable ν) (scope : Scope (Variable ν))
    (expression : String) : Run σ ν (Except EvalError String) := do
  match ← engine.evaluator.evaluate expression v scope none with
  | .error e => return .error e
  | .ok answer => return .ok (← hole answer)

omit engine in
/-- Templates are looked at in the same way if their guards hold in the same way and their
expressions come to the same texts. -/
theorem follows_firstText_of {τ μ : Type} {w : Watch (Session τ ν) (Session σ ν) μ}
    {engine' : Engine τ ν} {engine : Engine σ ν} {watched : Answer ν → Run τ ν String}
    {hole : Answer ν → Run σ ν String} {v : Variable ν} {scope : Scope (Variable ν)}
    {templates : List GuardedText}
    (applies : ∀ template ∈ templates, w.Follows
      (liftM (engine'.evaluator.applies template.guard v scope) : Run τ ν (Except EvalError Bool))
      (liftM (engine.evaluator.applies template.guard v scope) : Run σ ν (Except EvalError Bool)))
    (filled : ∀ template ∈ templates, ∀ expression ∈ Template.expressions template.value,
      w.Follows (engine'.holeText watched v scope expression)
        (engine.holeText hole v scope expression)) :
    w.Follows (engine'.firstText watched v scope templates)
      (engine.firstText hole v scope templates) := by
  induction templates with
  | nil => exact follows_pure _
  | cons template rest ih =>
    obtain ⟨here, applies⟩ := List.forall_mem_cons.mp applies
    obtain ⟨holes, filled⟩ := List.forall_mem_cons.mp filled
    have go := follows_decided (ih applies filled) template.guard.optional
    unfold firstText
    refine here.bind fun applies => ?_
    rcases applies with e | _ | _
    · exact (follows_pure _).bind go
    · exact (follows_pure _).bind go
    · exact (Template.follows_fill holes).bind fun filled => (follows_pure _).bind go

/-- The templates are looked at as they are without a watch, if the texts of values are
made as they are. -/
theorem follows_firstText {watched : Answer ν → Run (σ × List (Note σ ν)) ν String}
    {hole : Answer ν → Run σ ν String}
    (h : ∀ answer, (levels max depth).Follows (watched answer) (hole answer))
    (v : Variable ν) (scope : Scope (Variable ν)) (templates : List GuardedText) :
    (levels max depth).Follows (engine.watching.firstText watched v scope templates)
      (engine.firstText hole v scope templates) := by
  refine follows_firstText_of (fun template _ => ?_) fun template _ expression _ => ?_
  · exact follows_target (engine.evaluator.follows_applies Note.asked v scope _)
  · refine (follows_target (engine.evaluator.follows_evaluate Note.asked v scope _ none)).bind
      fun result => ?_
    cases result with
    | error e => exact follows_pure _
    | ok answer => exact (h answer).bind fun text => follows_pure _

/-! ## A level without a counter -/

/-- What a level comes to, from the text of its templates and the plain text. -/
def outcomeOf (plain : String) : Except EvalError (Option String) → Except EvalError String
  | .ok (some text) => .ok text
  | .ok none => .ok plain
  | .error e => .error e

/-- What is shown for what a level comes to. -/
def textOf (plain : String) : Except EvalError String → String
  | .ok text => text
  | .error _ => plain

section

variable (answer : Answer ν) {templates : List GuardedText} {scope : Scope (Variable ν)}
  {s s' t : Session σ ν}

theorem valueText_zero
    (found : engine.templatesFor kind answer.toVariable s = ((templates, scope), s')) :
    engine.valueText kind 0 answer s = (tooDeep, s') := by
  rw [valueText, bind_apply, found]
  rfl

theorem valueText_succ {levels : Nat} {text : Except EvalError (Option String)}
    (found : engine.templatesFor kind answer.toVariable s = ((templates, scope), s'))
    (made : engine.firstText (engine.valueText kind levels) answer.toVariable scope templates s' =
      (text, t)) :
    let plain := (engine.plainText kind answer t).1
    engine.valueText kind (levels + 1) answer s = (textOf plain (outcomeOf plain text), t) := by
  rw [valueText, bind_apply, found]
  dsimp only
  rw [bind_apply, made]
  rcases text with e | _ | text
  · rfl
  · rfl
  · rfl

end

/-! ## Counting levels -/

/-- Note something down. -/
def noteDown (note : Note σ ν) : Run (σ × List (Note σ ν)) ν Unit :=
  modify fun s => { s with target := (s.target.1, s.target.2 ++ [note]) }

/-- Enter a level. -/
def openLevel : Run (σ × List (Note σ ν)) ν Unit := do
  modify fun s => { s with depth := s.depth + 1 }
  noteDown (.opened (← get).depth)

/-- Leave a level. -/
def closeLevel (text : Except EvalError String) : Run (σ × List (Note σ ν)) ν Unit := do
  modify fun s => { s with depth := s.depth - 1 }
  noteDown (.closed (← get).depth text)

section

variable (nested : Answer ν → Run (σ × List (Note σ ν)) ν String) (answer : Answer ν)
  (templates : List GuardedText) (scope : Scope (Variable ν))

/-- What a level comes to: three dots beyond the limit, else the text of the first
template that applies. `nested` gives the texts of the values in templates. -/
def levelOutcome : Run (σ × List (Note σ ν)) ν (Except EvalError String) := do
  if (← get).depth > engine.options.get .maxFormatDepth then return .ok tooDeep
  else
    match ← engine.watching.firstText nested answer.toVariable scope templates with
    | .ok (some text) => return .ok text
    | .ok none => return .ok (← engine.watching.plainText kind answer)
    | .error e => return .error e

/-- A level is entered and left again, whatever it comes to. -/
def countedLevel : Run (σ × List (Note σ ν)) ν (Except EvalError String) := do
  openLevel
  let outcome ← engine.levelOutcome kind nested answer templates scope
  closeLevel outcome
  return outcome

/-- The text of a value, with the levels counted in the session. -/
def countedText : Run (σ × List (Note σ ν)) ν String := do
  let (templates, scope) ← engine.watching.templatesFor kind answer.toVariable
  match ← engine.countedLevel kind nested answer templates scope with
  | .ok text => return text
  | .error _ => engine.watching.plainText kind answer

end

/-- The text of a value that counts its levels, `n` of them; what is nested deeper is
made by `beyond`. -/
def nestedText (beyond : Answer ν → Run (σ × List (Note σ ν)) ν String) :
    Nat → Answer ν → Run (σ × List (Note σ ν)) ν String
  | 0 => beyond
  | n + 1 => engine.countedText kind (nestedText beyond n)

theorem levelOutcome_within {nested : Answer ν → Run (σ × List (Note σ ν)) ν String}
    {answer : Answer ν} {templates : List GuardedText} {scope : Scope (Variable ν)}
    {s t : Session σ ν} {log log' : List (Note σ ν)} {text : Except EvalError (Option String)}
    (within : ¬ depth > engine.options.get .maxFormatDepth)
    (h : engine.watching.firstText nested answer.toVariable scope templates (s.watched depth log) =
      (text, t.watched depth log')) :
    engine.levelOutcome kind nested answer templates scope (s.watched depth log) =
      (outcomeOf (engine.plainText kind answer t).1 text, t.watched depth log') := by
  have within : ¬ (s.watched depth log).depth > engine.options.get .maxFormatDepth := within
  rw [levelOutcome, bind_apply, get_apply]
  dsimp only
  rw [if_neg within, bind_apply, h]
  rcases text with e | _ | text
  · rfl
  · rfl
  · rfl

theorem levelOutcome_beyond (nested : Answer ν → Run (σ × List (Note σ ν)) ν String)
    (answer : Answer ν) (templates : List GuardedText) (scope : Scope (Variable ν))
    (s : Session σ ν) (log : List (Note σ ν))
    (beyond : depth > engine.options.get .maxFormatDepth) :
    engine.levelOutcome kind nested answer templates scope (s.watched depth log) =
      (.ok tooDeep, s.watched depth log) := by
  have beyond : (s.watched depth log).depth > engine.options.get .maxFormatDepth := beyond
  rw [levelOutcome, bind_apply, get_apply]
  dsimp only
  rw [if_pos beyond]
  rfl

theorem countedLevel_watched {nested : Answer ν → Run (σ × List (Note σ ν)) ν String}
    {answer : Answer ν} {templates : List GuardedText} {scope : Scope (Variable ν)}
    {s t : Session σ ν} {log log' : List (Note σ ν)} {outcome : Except EvalError String}
    (h : engine.levelOutcome kind nested answer templates scope
      (s.watched (depth + 1) (log ++ [.opened (depth + 1)])) =
        (outcome, t.watched (depth + 1) log')) :
    engine.countedLevel kind nested answer templates scope (s.watched depth log) =
      (outcome, t.watched depth (log' ++ [.closed depth outcome])) := by
  have opened : openLevel (s.watched depth log) =
      ((), s.watched (depth + 1) (log ++ [.opened (depth + 1)])) := rfl
  have closed : closeLevel outcome (t.watched (depth + 1) log') =
      ((), t.watched depth (log' ++ [.closed depth outcome])) := rfl
  rw [countedLevel, bind_apply, opened, bind_apply, h, bind_apply, closed]
  rfl

/-- A level gives the text it would give without a counter, and leaves the counter as it
was. -/
theorem countedText_watched (max : Nat) (limit : engine.options.get .maxFormatDepth = max)
    {nested : Answer ν → Run (σ × List (Note σ ν)) ν String}
    (inside : depth < max → ∀ answer, (levels max (depth + 1)).Follows (nested answer)
      (engine.valueText kind (max - (depth + 1)) answer))
    (answer : Answer ν) (s : Session σ ν) (log : List (Note σ ν)) :
    let r := engine.valueText kind (max - depth) answer s
    ∃ added, Level max depth r.1 added ∧
      engine.countedText kind nested answer (s.watched depth log) =
        (r.1, r.2.watched depth (log ++ added)) := by
  rcases found : engine.templatesFor kind answer.toVariable s with ⟨⟨templates, scope⟩, s'⟩
  rw [countedText, bind_apply, templatesFor_watched, found]
  dsimp only
  rcases Nat.lt_or_ge depth max with within | beyond
  · obtain ⟨added, fits, same⟩ := (engine.follows_firstText (inside within) answer.toVariable
      scope templates).exists_added s' (log ++ [.opened (depth + 1)])
    rcases made : engine.firstText (engine.valueText kind (max - (depth + 1))) answer.toVariable
      scope templates s' with ⟨text, t⟩
    rw [made] at same
    have outcome := engine.levelOutcome_within kind (limit ▸ Nat.not_lt_of_le within) same
    rw [show max - depth = max - (depth + 1) + 1 by omega, engine.valueText_succ kind answer found
      made, bind_apply, engine.countedLevel_watched kind outcome]
    -- whatever the level comes to, it was left before the text is shown
    generalize outcomeOf (engine.plainText kind answer t).1 text = outcome
    refine ⟨_, .within outcome within fits ?_, ?_⟩
    · rintro text rfl
      rfl
    · rw [List.append_assoc, List.append_assoc, List.singleton_append]
      cases outcome with
      | ok text => rfl
      | error e => rfl
  · have outcome := engine.levelOutcome_beyond kind nested answer templates scope s'
      (log ++ [.opened (depth + 1)]) (limit ▸ Nat.lt_succ_of_le beyond)
    rw [show max - depth = 0 by omega, engine.valueText_zero kind answer found, bind_apply,
      engine.countedLevel_watched kind outcome, List.append_assoc]
    exact ⟨_, .tooDeep beyond, rfl⟩

/-- The levels that are left are enough to nest in: what is beyond is never come to. -/
theorem follows_nestedText (max : Nat) (limit : engine.options.get .maxFormatDepth = max)
    (beyond : Answer ν → Run (σ × List (Note σ ν)) ν String) (n depth : Nat)
    (enough : max - depth < n) (answer : Answer ν) :
    (levels max depth).Follows (engine.nestedText kind beyond n answer)
      (engine.valueText kind (max - depth) answer) := by
  -- on the levels: one level deeper there is one less left, and one less is needed
  induction n generalizing depth answer with
  | zero => exact absurd enough (Nat.not_lt_zero _)
  | succ n ih =>
    refine follows_of_added fun s log => ?_
    obtain ⟨added, level, same⟩ := engine.countedText_watched kind max limit
      (fun within answer => ih (depth + 1) (by omega) answer) answer s log
    exact ⟨added, level.levels, same⟩

/-- What templates give does not depend on the counter, since it can be watched. -/
theorem firstText_withDepth (levels : Nat) (within : levels ≤ engine.options.get .maxFormatDepth)
    (v : Variable ν) (scope : Scope (Variable ν)) (templates : List GuardedText)
    (s : Session σ ν) (d : Nat) :
    let r := engine.firstText (engine.valueText kind levels) v scope templates s
    ∃ t, engine.firstText (engine.valueText kind levels) v scope templates
        { s with depth := d } = (r.1, t) ∧
      ∀ d', { t with depth := d' } = { r.2 with depth := d' } := by
  obtain ⟨depth, left⟩ : ∃ depth, engine.options.get .maxFormatDepth - depth = levels :=
    ⟨engine.options.get .maxFormatDepth - levels, by omega⟩
  have nested := engine.follows_nestedText kind _ rfl (fun _ => pure "") (levels + 1) depth
    (by omega)
  rw [left] at nested
  exact (engine.follows_firstText nested v scope templates).apply_withDepth s d

/-! ## Display strings -/

theorem depth_templatesFor (v : Variable ν) (s : Session σ ν) :
    (engine.templatesFor kind v s).2.depth = s.depth := by
  rw [templatesFor, bind_apply]
  split
  · rfl
  · rw [bind_apply]
    cases (engine.findRule v (engine.facts v s).2).1 with
    | none => rfl
    | some m => rfl

section

variable (templates : List GuardedText) (v : Variable ν) (scope : Scope (Variable ν))
  {plain : Search σ ν String} {s : Session σ ν}

theorem format_beyond (beyond : engine.options.get .maxFormatDepth - s.depth = 0) :
    engine.format kind plain templates v scope s = .ok (.ok tooDeep, s) := by
  refine bind_eq_ok_iff.mpr ⟨(s, s), rfl, ?_⟩
  dsimp only
  rw [beyond]
  rfl

/-- The plain text is asked for only if no template applies. -/
theorem format_of_firstText {levels : Nat}
    (left : engine.options.get .maxFormatDepth - s.depth = levels + 1)
    {text : Except EvalError (Option String)} {t : Session σ ν} (word : String)
    (made : engine.firstText (engine.valueText kind levels) v scope templates
      { s with depth := s.depth + 1 } = (text, t))
    (ends : text = .ok none → plain t = .ok (word, t)) :
    engine.format kind plain templates v scope s =
      .ok (outcomeOf word text, { t with depth := s.depth }) := by
  refine bind_eq_ok_iff.mpr ⟨(s, s), rfl, ?_⟩
  dsimp only
  rw [left]
  refine bind_eq_ok_iff.mpr ⟨((), { s with depth := s.depth + 1 }), rfl, ?_⟩
  refine bind_eq_ok_iff.mpr ⟨(text, t), congrArg Except.ok made, ?_⟩
  rcases text with e | _ | text
  · rfl
  · exact bind_eq_ok_iff.mpr ⟨(word, t), ends rfl, rfl⟩
  · rfl

end

/-- The text of a variable of the debugger is that of a value, and the counter is as it
was. -/
theorem display_debugger (bound : Nat) (handle : ν) (s : Session σ ν) :
    let r := engine.valueText kind (engine.options.get .maxFormatDepth - s.depth) ⟨handle, none⟩ s
    engine.display (bound + 1) kind (.debugger handle) s =
      .ok (r.1, { r.2 with depth := s.depth }) := by
  have ends (s : Session σ ν) : engine.text (bound + 1) kind (.debugger handle) s =
      .ok ((engine.plainText kind ⟨handle, none⟩ s).1, s) := rfl
  rcases found : engine.templatesFor kind (.debugger handle) s with ⟨⟨templates, scope⟩, s'⟩
  have counted : s'.depth = s.depth := by
    rw [← engine.depth_templatesFor kind (.debugger handle) s, found]
  rw [← counted]
  refine bind_eq_ok_iff.mpr ⟨_, congrArg Except.ok found, ?_⟩
  cases left : engine.options.get .maxFormatDepth - s'.depth with
  | zero =>
    rw [engine.valueText_zero kind ⟨handle, none⟩ found]
    exact bind_eq_ok_iff.mpr ⟨_, engine.format_beyond kind templates _ scope left, rfl⟩
  | succ levels =>
    -- the templates are looked at with the counter one higher, which makes no difference
    obtain ⟨t', made', same⟩ := engine.firstText_withDepth kind levels (by omega)
      (.debugger handle) scope templates s' (s'.depth + 1)
    rcases made : engine.firstText (engine.valueText kind levels) (.debugger handle) scope templates
      s' with ⟨text, t⟩
    rw [made] at made' same
    have target : t'.target = t.target := by
      have targets := congrArg Session.target (same 0)
      exact targets
    have plain : (engine.plainText kind ⟨handle, none⟩ t').1 =
        (engine.plainText kind ⟨handle, none⟩ t).1 :=
      congrArg (engine.inspector.text · kind handle) target
    refine bind_eq_ok_iff.mpr
      ⟨_, engine.format_of_firstText kind templates _ scope left _ made' fun _ => ends t', ?_⟩
    rw [engine.valueText_succ kind ⟨handle, none⟩ found made, same s'.depth, plain]
    dsimp only
    cases outcomeOf (engine.plainText kind ⟨handle, none⟩ t).1 text with
    | ok text => rfl
    | error e => rfl

/-- **Formatting ends, and the counter of levels is balanced.** A variable of the
debugger has a text, and the session counts afterwards as it did before. It is the text
that is made with the levels counted in the session, whatever would make the texts nested
deeper than the levels that are left. What is noted down meanwhile is one level: one that
would be beyond the limit is left with three dots as soon as it is entered, and any other
holds calls and levels one deeper. Each is left with the counter as it was. -/
theorem display_levels (bound : Nat) (handle : ν) (s : Session σ ν) :
    ∃ text t, engine.display (bound + 1) kind (.debugger handle) s = .ok (text, t) ∧
      t.depth = s.depth ∧
      ∀ beyond n, engine.options.get .maxFormatDepth - s.depth < n →
        ∃ notes, Level (engine.options.get .maxFormatDepth) s.depth text notes ∧
          engine.nestedText kind beyond n ⟨handle, none⟩ (s.watched s.depth []) =
            (text, t.watched s.depth notes) := by
  refine ⟨_, _, engine.display_debugger kind bound handle s, rfl, fun beyond n enough => ?_⟩
  obtain ⟨n, rfl⟩ : ∃ m, n = m + 1 := ⟨n - 1, by omega⟩
  have inside (within : s.depth < engine.options.get .maxFormatDepth) (answer : Answer ν) :=
    engine.follows_nestedText kind _ rfl beyond n (s.depth + 1) (by omega) answer
  exact engine.countedText_watched kind _ rfl inside ⟨handle, none⟩ s []

end Engine

end WatchView
