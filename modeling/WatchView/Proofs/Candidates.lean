import WatchView.Proofs.Listing.Contained
/-!
# The first candidate that counts

The templates of a text and the sizes of a list are candidates: guarded texts, tried in
order. One that is hidden is passed over, and one that fails is as well if it is optional.
The first that is not passed over decides, with what it gives or with its failure, and
nothing behind it is tried. `firstOf` does this for any kind of candidate; the formatter
and the sizes are instances of it (`Engine.firstText_eq`, `Evaluator.declaredSize_eq`).

So a candidate that is passed over may as well not be there, if trying it leaves nothing
behind. A stateless debugger keeps nothing, but the rule book keeps the rules that were
found for the values in a template that fails. This makes no difference as long as one
name stands for one type (`first_candidate_counts`); otherwise it does
(`TwoTypes.passed_over_shows`).
-/

namespace WatchView

open Bounded Watch

variable {σ ν S ε α : Type}

/-! ## Candidates in order -/

/-- Whether a candidate that comes to this is passed over. -/
def GuardedText.isPassed (candidate : GuardedText) : Except ε (Option α) → Bool
  | .ok none => true
  | .ok (some _) => false
  | .error _ => candidate.guard.optional

/-- What the first candidate comes to that is not passed over; none if all are. -/
def firstOf (attempt : GuardedText → StateM S (Except ε (Option α))) :
    List GuardedText → StateM S (Except ε (Option α))
  | [] => pure (.ok none)
  | candidate :: more => do
    match ← attempt candidate with
    | .ok none => firstOf attempt more
    | .ok (some a) => pure (.ok (some a))
    | .error e => if candidate.guard.optional then firstOf attempt more else pure (.error e)

section Candidates

variable {attempt : GuardedText → StateM S (Except ε (Option α))} {candidate : GuardedText}

theorem firstOf_cons (attempt : GuardedText → StateM S (Except ε (Option α)))
    (candidate : GuardedText) (more : List GuardedText) (s : S) :
    firstOf attempt (candidate :: more) s =
      if candidate.isPassed (attempt candidate s).1 then
        firstOf attempt more (attempt candidate s).2
      else attempt candidate s := by
  rw [firstOf, bind_apply]
  rcases attempt candidate s with ⟨e | _ | a, s'⟩
  · show (if candidate.guard.optional then firstOf attempt more else pure (.error e)) s' =
      if candidate.guard.optional then firstOf attempt more s' else (.error e, s')
    by_cases optional : candidate.guard.optional = true
    · rw [if_pos optional, if_pos optional]
    · rw [if_neg optional, if_neg optional]
      rfl
  · rfl
  · rfl

/-- Where candidates lead that are all passed over, one after the other. -/
inductive Passes (attempt : GuardedText → StateM S (Except ε (Option α))) :
    List GuardedText → S → S → Prop
  | nil (s : S) : Passes attempt [] s s
  | cons {candidate : GuardedText} {more : List GuardedText} {s s' : S} :
    candidate.isPassed (attempt candidate s).1 = true →
      Passes attempt more (attempt candidate s).2 s' → Passes attempt (candidate :: more) s s'

theorem firstOf_append_of_passes {before : List GuardedText} {s s' : S}
    (h : Passes attempt before s s') (behind : List GuardedText) :
    firstOf attempt (before ++ behind) s = firstOf attempt behind s' := by
  induction h with
  | nil => rfl
  | cons passed _ ih => rw [List.cons_append, firstOf_cons, if_pos passed, ih]

theorem firstOf_of_decided {before : List GuardedText} {s s' : S}
    (passes : Passes attempt before s s')
    (decides : candidate.isPassed (attempt candidate s').1 = false)
    (behind : List GuardedText) :
    firstOf attempt (before ++ candidate :: behind) s = attempt candidate s' := by
  rw [firstOf_append_of_passes passes, firstOf_cons, decides, if_neg Bool.false_ne_true]

/-- **The first candidate that is not passed over decides**, with what it gives or with its failure:
what is made of a list is the same whatever stands behind it, and so is all that was done meanwhile.
If all are passed over there is something to fall back on. -/
structure DecidesFirst {β : Type} (attempt : GuardedText → StateM S (Except ε (Option α))) (s : S)
    (made : List GuardedText → β) (outcome : Except ε α → S → β) (fallback : S → β) : Prop where
  given : ∀ before s', Passes attempt before s s' → ∀ candidate a t,
    attempt candidate s' = (.ok (some a), t) →
      ∀ behind, made (before ++ candidate :: behind) = outcome (.ok a) t
  failed : ∀ before s', Passes attempt before s s' → ∀ candidate e t,
    candidate.guard.optional = false → attempt candidate s' = (.error e, t) →
      ∀ behind, made (before ++ candidate :: behind) = outcome (.error e) t
  none : ∀ candidates s', Passes attempt candidates s s' → made candidates = fallback s'

/-- The first candidate decides what is made of what `firstOf` comes to. -/
theorem decidesFirst_of_firstOf {β : Type} {s : S} {made : List GuardedText → β}
    {outcome : Except ε α → S → β} (finish : Except ε (Option α) × S → β)
    (same : ∀ candidates, made candidates = finish (firstOf attempt candidates s))
    (finished : ∀ result t, finish (result.map some, t) = outcome result t) :
    DecidesFirst attempt s made outcome fun t => finish (.ok none, t) where
  given before s' passes candidate a t came behind := by
    have decides : candidate.isPassed (attempt candidate s').1 = false := by
      rw [came]
      rfl
    rw [same, firstOf_of_decided passes decides, came]
    exact finished (.ok a) t
  failed before s' passes candidate e t required came behind := by
    have decides : candidate.isPassed (attempt candidate s').1 = false := by
      rw [came]
      exact required
    rw [same, firstOf_of_decided passes decides, came]
    exact finished (.error e) t
  none candidates s' passes := by
    have all : firstOf attempt candidates s = (.ok none, s') := by
      have ended := firstOf_append_of_passes passes []
      rwa [List.append_nil] at ended
    rw [same, all]

/-- **A candidate that is passed over may as well not be there**, if trying it leaves a state that
makes no difference to those behind it. -/
theorem firstOf_erase {kind : S → Prop} {alike : S → S → Prop} (before behind : List GuardedText)
    (refl : ∀ s, kind s → alike s s)
    (keeps : ∀ candidate s, kind s → kind (attempt candidate s).2)
    (passed : ∀ s, kind s → candidate.isPassed (attempt candidate s).1 = true ∧
      alike (attempt candidate s).2 s)
    (follows : ∀ p s, alike p s → (firstOf attempt behind p).1 = (firstOf attempt behind s).1 ∧
      alike (firstOf attempt behind p).2 (firstOf attempt behind s).2)
    {s : S} (here : kind s) :
    (firstOf attempt (before ++ candidate :: behind) s).1 =
        (firstOf attempt (before ++ behind) s).1 ∧
      alike (firstOf attempt (before ++ candidate :: behind) s).2
        (firstOf attempt (before ++ behind) s).2 := by
  -- in front of the candidate both do the same
  induction before generalizing s with
  | nil =>
    obtain ⟨isPassed, left⟩ := passed s here
    rw [List.nil_append, List.nil_append, firstOf_cons, isPassed, if_pos rfl]
    exact follows _ _ left
  | cons first before ih =>
    rw [List.cons_append, List.cons_append, firstOf_cons, firstOf_cons]
    split
    · exact ih (keeps first s here)
    · exact ⟨rfl, refl _ (keeps first s here)⟩

end Candidates

/-! ## Sizes -/

namespace Evaluator

variable {ev : Evaluator σ ν} {v : Variable ν} {scope : Scope (Variable ν)} {t : σ}

/-- What the sizes declare, by what the first of them comes to. -/
def declared : Except EvalError (Option Nat) → Except ExpandError Nat
  | .ok (some n) => .ok n
  | .ok none => .error .noSize
  | .error e => .error (.evaluation e)

/-- The first size that counts declares the number. -/
theorem declaredSize_eq (ev : Evaluator σ ν) (v : Variable ν) (scope : Scope (Variable ν))
    (sizes : List GuardedText) (t : σ) : ev.declaredSize v scope sizes t =
      (declared (firstOf (ev.sizeValue · v scope) sizes t).1,
        (firstOf (ev.sizeValue · v scope) sizes t).2) := by
  induction sizes generalizing t with
  | nil => rfl
  | cons size sizes ih =>
    rw [declaredSize, firstOf, bind_apply, bind_apply]
    rcases ev.sizeValue size v scope t with ⟨e | _ | n, t'⟩
    · dsimp only
      split
      · exact ih t'
      · rfl
    · exact ih t'
    · rfl

end Evaluator

/-! ## Templates -/

/-- Sessions that another one leads to, with nothing but answers kept, are alike. -/
theorem Session.Leaves.alike_of_leaves {engine : Engine σ ν} {R : Region} {s p q : Session σ ν}
    {k : Nat} (left : s.Leaves engine k p) (left' : s.Leaves engine k q) : p.Alike engine R q where
  target := left.target.trans left'.target.symm
  depth := left.depth.trans left'.depth.symm
  scratchCount := left.scratchCount.trans left'.scratchCount.symm
  catalogue := left.catalogue.trans left'.catalogue.symm
  trusts := left.trusts
  trusts' := left'.trusts
  size := congrArg Array.size (left.listings.trans left'.listings.symm)
  kept id _ := congrFun (Session.kept_congr (left.listings.trans left'.listings.symm)) id

theorem Session.Alike.symm {engine : Engine σ ν} {R : Region} {p q : Session σ ν}
    (same : p.Alike engine R q) : q.Alike engine R p where
  target := same.target.symm
  depth := same.depth.symm
  scratchCount := same.scratchCount.symm
  catalogue := same.catalogue.symm
  trusts := same.trusts'
  trusts' := same.trusts
  size := same.size.symm
  kept id here := (same.kept id (same.size ▸ here)).symm

/-- What work comes to, if it ends: its answer, without the session. -/
def answerOf (outcome : Except Stop (α × σ)) : Option α := outcome.toOption.map Prod.fst

/-- Work that does the same in sessions that are alike gives one answer in them, or in neither. -/
theorem Congruent.answerOf_eq {engine : Engine σ ν} {R : Region} {k : Nat} {act : Search σ ν α}
    (h : Congruent engine R k act) {p q : Session σ ν} (free : p.Open R) (free' : q.Open R)
    (many : p.listings.size = k) (same : p.Alike engine R q) :
    answerOf (act p) = answerOf (act q) := by
  cases ended : act p with
  | ok r =>
    obtain ⟨_, q', ended', rfl, -⟩ := h p q free free' many same r.1 r.2 ended
    rw [ended']
    rfl
  | error stop =>
    cases ended' : act q with
    | error stop' => rfl
    | ok r =>
      obtain ⟨_, p', other, -, -⟩ :=
        h q p free' free (same.size.symm.trans many) same.symm r.1 r.2 ended'
      cases ended.symm.trans other

namespace Engine

variable {engine : Engine σ ν} {hole : Answer ν → Run σ ν String} {kind : TextKind}
  {v : Variable ν} {scope : Scope (Variable ν)} {s : Session σ ν}

/-- What a template comes to: its text, none if it is hidden. -/
def templateText (engine : Engine σ ν) (hole : Answer ν → Run σ ν String) (v : Variable ν)
    (scope : Scope (Variable ν)) (template : GuardedText) :
    Run σ ν (Except EvalError (Option String)) := do
  match ← engine.evaluator.applies template.guard v scope with
  | .error e => return .error e
  | .ok false => return .ok none
  | .ok true =>
    let filled ← Template.fill (engine.holeText hole v scope) template.value
    return filled.map some

/-- The text is that of the first template that counts. -/
theorem firstText_eq (engine : Engine σ ν) (hole : Answer ν → Run σ ν String) (v : Variable ν)
    (scope : Scope (Variable ν)) (templates : List GuardedText) :
    engine.firstText hole v scope templates =
      firstOf (engine.templateText hole v scope) templates := by
  induction templates with
  | nil => rfl
  | cons template rest ih =>
    rw [firstText, firstOf, templateText, ih, bind_assoc]
    refine bind_congr fun applies => ?_
    rcases applies with e | _ | _
    · rfl
    · rfl
    · dsimp only
      rw [bind_assoc]
      refine bind_congr fun filled => ?_
      cases filled <;> rfl

section Passed

variable {template : GuardedText} {before behind : List GuardedText} {levels : Nat}

/-- A template comes to the same if its guard and its expressions do. -/
theorem follows_templateText {μ : Type} {w : Watch (Session σ ν) (Session σ ν) μ}
    (evaluates : ∀ {β : Type} (act : StateM σ β), Keeps act →
      w.Follows (liftM act : Run σ ν β) (liftM act : Run σ ν β))
    (h : ∀ answer, w.Follows (hole answer) (hole answer)) (stateless : engine.debugger.Stateless)
    (template : GuardedText) :
    w.Follows (engine.templateText hole v scope template)
      (engine.templateText hole v scope template) := by
  refine (evaluates _ (Evaluator.keeps_applies v scope stateless _)).bind fun applied => ?_
  rcases applied with e | _ | _
  · exact follows_pure _
  · exact follows_pure _
  · refine (Template.follows_fill fun expression _ => ?_).bind fun _ => follows_pure _
    refine (evaluates _ (Evaluator.keeps_evaluate v scope stateless _ _)).bind fun result => ?_
    cases result with
    | error e => exact follows_pure _
    | ok answer => exact (h answer).bind fun _ => follows_pure _

/-- A template whose guard decides against it leaves the session as it is. -/
theorem templateText_of_guard (stateless : engine.debugger.Stateless)
    {r : Except EvalError Bool}
    (applies : (engine.evaluator.applies template.guard v scope s.target).1 = r)
    (no : r ≠ .ok true) :
    engine.templateText hole v scope template s = (r.map fun _ => none, s) := by
  have keeps : Keeps (engine.evaluator.applies template.guard v scope) :=
    Evaluator.keeps_applies v scope stateless _
  have came : (liftM (engine.evaluator.applies template.guard v scope) :
      Run σ ν (Except EvalError Bool)) s = (r, s) := Prod.ext applies (keeps.lift_eq s)
  rw [templateText, bind_apply, came]
  rcases r with e | _ | _
  · rfl
  · rfl
  · exact absurd rfl no

variable (stateless : engine.debugger.Stateless)

include stateless

/-- **A template that is passed over for its guard may as well not be there.** -/
theorem firstText_erase_guard {r : Except EvalError Bool}
    (applies : (engine.evaluator.applies template.guard v scope s.target).1 = r)
    (passed : r = .ok false ∨ template.guard.optional = true ∧ ∃ e, r = .error e) :
    engine.firstText (engine.valueText kind levels) v scope (before ++ template :: behind) s =
      engine.firstText (engine.valueText kind levels) v scope (before ++ behind) s := by
  let attempt := engine.templateText (engine.valueText kind levels) v scope
  have no : r ≠ .ok true := by
    rintro rfl
    simp at passed
  -- the guard is asked of the debugger alone, and no template in front of it changes that
  have keeps (candidate : GuardedText) (s' : Session σ ν) (here : s'.target = s.target) :
      (attempt candidate s').2.target = s.target := by
    have stays : (within fun s' : Session σ ν => s'.target = s.target).Follows
        (attempt candidate) (attempt candidate) :=
      follows_templateText (fun _ quiet => quiet.follows)
        (within_valueText (fun _ _ same => same) stateless kind levels) stateless candidate
    exact stays.stays here
  have passes (s' : Session σ ν) (here : s'.target = s.target) :
      template.isPassed (attempt template s').1 = true ∧ (attempt template s').2 = s' := by
    have came : attempt template s' = (r.map fun _ => none, s') :=
      templateText_of_guard stateless (here ▸ applies) no
    rw [came]
    rcases passed with rfl | ⟨optional, e, rfl⟩
    · exact ⟨rfl, rfl⟩
    · exact ⟨optional, rfl⟩
  rw [firstText_eq, firstText_eq]
  have erased := firstOf_erase before behind (fun (s' : Session σ ν) _ => Eq.refl s') keeps passes
    (fun p s' same => by rw [same]; exact ⟨rfl, rfl⟩) rfl
  exact Prod.ext erased.1 erased.2

/-- **An optional template that fails may as well not be there**, if one name stands for one
type. -/
theorem firstText_erase_failing {R : Region} (names : engine.inspector.NamesTypes)
    (trusts : s.Trusts engine) {e : EvalError} (optional : template.guard.optional = true)
    (fails : (engine.templateText (engine.valueText kind levels) v scope template s).1 =
      .error e) :
    (engine.firstText (engine.valueText kind levels) v scope (before ++ template :: behind) s).1 =
        (engine.firstText (engine.valueText kind levels) v scope (before ++ behind) s).1 ∧
      (engine.firstText (engine.valueText kind levels) v scope (before ++ template :: behind)
        s).2.Alike engine R
          (engine.firstText (engine.valueText kind levels) v scope (before ++ behind) s).2 := by
  let attempt := engine.templateText (engine.valueText kind levels) v scope
  -- those in front of it leave answers in the rule book at most, so that it fails behind them too
  have keeps (candidate : GuardedText) (s' : Session σ ν) (left : s.Leaves engine 0 s') :
      s.Leaves engine 0 (attempt candidate s').2 := by
    have stays : (within (s.Leaves engine 0)).Follows (attempt candidate) (attempt candidate) :=
      follows_templateText (fun _ quiet => quiet.follows)
        (within_valueText (leaves_findRule names s) stateless kind levels) stateless candidate
    exact stays.stays left
  have passes (s' : Session σ ν) (left : s.Leaves engine 0 s') :
      template.isPassed (attempt template s').1 = true ∧
        (attempt template s').2.Alike engine R s' := by
    have same : (alike engine R).Follows (attempt template) (attempt template) :=
      follows_templateText (fun act _ => follows_debugger act)
        (follows_value names kind levels) stateless template
    have came : (attempt template s').1 = .error e :=
      (same.alike (left.alike trusts R)).1.symm.trans fails
    rw [came]
    exact ⟨optional, (keeps template s' left).alike_of_leaves left⟩
  rw [firstText_eq, firstText_eq]
  refine firstOf_erase before behind (fun s' left => .refl left.trusts) keeps passes
    (fun p s' alike => ?_) (.refl trusts)
  rw [← firstText_eq]
  exact (follows_first (follows_value names kind levels) v scope behind).alike alike

end Passed

/-! ## The text of a variable -/

/-- What becomes of what the templates come to: the plain text is shown if none counts, and
the level is left. -/
def finished (plain : Search σ ν String) (depth : Nat) :
    Except EvalError (Option String) × Session σ ν →
      Except Stop (Except EvalError String × Session σ ν)
  | (.error e, s) => .ok (.error e, { s with depth })
  | (.ok (some text), s) => .ok (.ok text, { s with depth })
  | (.ok none, s) => (plain s).map fun r => (.ok r.1, { r.2 with depth })

theorem answerOf_finished (plain : Search σ ν String) (depth : Nat)
    (r : Except EvalError (Option String) × Session σ ν) :
    answerOf (finished plain depth r) =
      match r.1 with
      | .error e => some (.error e)
      | .ok (some text) => some (.ok text)
      | .ok none => (answerOf (plain r.2)).map .ok := by
  rcases r with ⟨e | _ | text, s⟩
  · rfl
  · rw [finished]
    cases plain s <;> rfl
  · rfl

theorem format_eq (plain : Search σ ν String) (templates : List GuardedText)
    (below : s.depth < engine.options.get .maxFormatDepth) :
    engine.format kind plain templates v scope s = finished plain s.depth
      (engine.firstText (engine.valueText kind (engine.options.get .maxFormatDepth - (s.depth + 1)))
        v scope templates { s with depth := s.depth + 1 }) := by
  obtain ⟨levels, left⟩ : ∃ levels, engine.options.get .maxFormatDepth - s.depth = levels + 1 :=
    ⟨engine.options.get .maxFormatDepth - (s.depth + 1), by omega⟩
  have one_less : engine.options.get .maxFormatDepth - (s.depth + 1) = levels := by omega
  rw [one_less]
  unfold format
  rw [bind_of_eq_ok (rfl : (get : Search σ ν (Session σ ν)) s = .ok (s, s))]
  dsimp only
  rw [left]
  dsimp only
  rw [bind_of_eq_ok (rfl : (setDepth (s.depth + 1) : Search σ ν Unit) s =
    .ok ((), { s with depth := s.depth + 1 })), lift_bind_apply]
  rcases engine.firstText (engine.valueText kind levels) v scope templates
      { s with depth := s.depth + 1 } with ⟨e | _ | text, t⟩
  · rfl
  · -- the plain text is made on this level too
    have same (r : Except Stop (String × Session σ ν)) :
        (r.bind fun r => .ok (.ok r.1, { r.2 with depth := s.depth })) =
          r.map fun r => ((.ok r.1 : Except EvalError String), { r.2 with depth := s.depth }) := by
      cases r <;> rfl
    exact same (plain t)
  · rfl

end Engine

/-! ## What decides -/

/-- A candidate makes no difference to what is made of the lists it stands in. -/
def Ignored {β : Type} (made : List GuardedText → β) (candidate : GuardedText) : Prop :=
  ∀ before behind, made (before ++ candidate :: behind) = made (before ++ behind)

/-- The candidate is hidden by its views or its condition. -/
def Evaluator.Hides (ev : Evaluator σ ν) (v : Variable ν) (scope : Scope (Variable ν)) (t : σ)
    (candidate : GuardedText) : Prop :=
  (ev.applies candidate.guard v scope t).1 = .ok false

/-- The candidate is optional, and this fails. -/
def GuardedText.FailsAllowed {β : Type} (candidate : GuardedText) (r : Except EvalError β) : Prop :=
  candidate.guard.optional = true ∧ ∃ e, r = .error e

theorem GuardedText.failsAllowed_of_isOk {β : Type} {candidate : GuardedText}
    {r : Except EvalError β} (optional : candidate.guard.optional = true) (fails : r.isOk = false) :
    candidate.FailsAllowed r := by
  cases r with
  | error e => exact ⟨optional, e, rfl⟩
  | ok b => cases fails

section

variable (engine : Engine σ ν) (bound : Nat) (kind : TextKind) (v : Variable ν)
  (scope : Scope (Variable ν)) (s : Session σ ν)

/-- A session one level deeper. -/
def Session.deeper : Session σ ν := { s with depth := s.depth + 1 }

/-- What a template comes to when the text of a variable is made on a level below this one. -/
def Engine.attempted : GuardedText → Run σ ν (Except EvalError (Option String)) :=
  engine.templateText
    (engine.valueText kind (engine.options.get .maxFormatDepth - (s.depth + 1))) v scope

/-- What the templates come to. The variable is a level of its own. -/
def Engine.chosen (templates : List GuardedText) : Except EvalError (Option String) × Session σ ν :=
  engine.firstText (engine.valueText kind (engine.options.get .maxFormatDepth - (s.depth + 1))) v
    scope templates s.deeper

/-- The text of a variable that is made of templates. -/
def Engine.made (templates : List GuardedText) :
    Except Stop (Except EvalError String × Session σ ν) :=
  engine.format kind (engine.text bound kind v) templates v scope s

theorem listings_chosen (templates : List GuardedText) :
    (engine.chosen kind v scope s templates).2.listings = s.listings := by
  obtain ⟨target, book, same⟩ := engine.light_firstText
    (engine.light_valueText kind (engine.options.get .maxFormatDepth - (s.depth + 1))) v scope
    templates s.deeper
  rw [Engine.chosen, same]
  rfl

variable {engine bound kind v scope s}

theorem made_eq (below : s.depth < engine.options.get .maxFormatDepth)
    (templates : List GuardedText) : engine.made bound kind v scope s templates =
      Engine.finished (engine.text bound kind v) s.depth
        (engine.chosen kind v scope s templates) :=
  engine.format_eq _ templates below

theorem decidesFirst_made (below : s.depth < engine.options.get .maxFormatDepth) :
    DecidesFirst (engine.attempted kind v scope s) s.deeper (engine.made bound kind v scope s)
      (fun text t => .ok (text, { t with depth := s.depth }))
      fun t => (engine.text bound kind v t).map fun r =>
        (.ok r.1, { r.2 with depth := s.depth }) := by
  refine decidesFirst_of_firstOf (Engine.finished (engine.text bound kind v) s.depth) ?_ ?_
  · intro templates
    rw [made_eq below, Engine.chosen, Engine.firstText_eq]
    rfl
  · intro text t
    cases text <;> rfl

theorem decidesFirst_declaredSize (ev : Evaluator σ ν) (t : σ) :
    DecidesFirst (ev.sizeValue · v scope) t (fun sizes => ev.declaredSize v scope sizes t)
      (fun n t' => (n.mapError .evaluation, t')) fun t' => (.error .noSize, t') := by
  refine decidesFirst_of_firstOf (fun r => (Evaluator.declared r.1, r.2)) ?_ ?_
  · exact fun sizes => ev.declaredSize_eq v scope sizes t
  · intro n t'
    cases n <;> rfl

/-! ## What is passed over -/

variable {template size : GuardedText} {ev : Evaluator σ ν} {t : σ}

theorem ignored_of_guard (stateless : engine.debugger.Stateless)
    (below : s.depth < engine.options.get .maxFormatDepth)
    (passed : engine.evaluator.Hides v scope s.target template ∨
      template.FailsAllowed (engine.evaluator.applies template.guard v scope s.target).1) :
    Ignored (engine.made bound kind v scope s) template := by
  intro before behind
  have same : engine.chosen kind v scope s (before ++ template :: behind) =
      engine.chosen kind v scope s (before ++ behind) :=
    Engine.firstText_erase_guard stateless rfl passed
  rw [made_eq below, made_eq below, same]

theorem ignored_of_failing (names : engine.inspector.NamesTypes)
    (stateless : engine.debugger.Stateless) (words : ∀ p, engine.options.get p < wordCount)
    (below : s.depth < engine.options.get .maxFormatDepth) (sound : s.Sound)
    (trusts : s.Trusts engine) (led : v.KnownIn s)
    (fails : template.FailsAllowed (engine.attempted kind v scope s template s.deeper).1) :
    Ignored (fun templates => answerOf (engine.made bound kind v scope s templates)) template := by
  intro before behind
  obtain ⟨optional, e, fails⟩ := fails
  obtain ⟨result, alike⟩ :
      (engine.chosen kind v scope s (before ++ template :: behind)).1 =
          (engine.chosen kind v scope s (before ++ behind)).1 ∧
        (engine.chosen kind v scope s (before ++ template :: behind)).2.Alike engine .known
          (engine.chosen kind v scope s (before ++ behind)).2 :=
    Engine.firstText_erase_failing stateless names trusts optional fails
  -- if none of them counts, the plain text is made in sessions that are alike
  have listings := listings_chosen engine kind v scope s
  have plain : answerOf (engine.text bound kind v
      (engine.chosen kind v scope s (before ++ template :: behind)).2) =
        answerOf (engine.text bound kind v
          (engine.chosen kind v scope s (before ++ behind)).2) :=
    ((engine.congruent_reach names words bound).text kind v led).answerOf_eq
      (sound.of_listings_eq (listings _)) (sound.of_listings_eq (listings _))
      (congrArg Array.size (listings _)) alike
  dsimp only
  rw [made_eq below, made_eq below, Engine.answerOf_finished, Engine.answerOf_finished, result,
    plain]

theorem ignored_size (stateless : ev.debugger.Stateless)
    (passed : ev.Hides v scope t size ∨ size.FailsAllowed (ev.sizeValue size v scope t).1) :
    Ignored (fun sizes => ev.declaredSize v scope sizes t) size := by
  intro before behind
  have keeps (candidate : GuardedText) (t' : σ) (here : t' = t) :
      (ev.sizeValue candidate v scope t').2 = t :=
    (Evaluator.keeps_sizeValue v scope stateless candidate t').trans here
  have isPassed : size.isPassed (ev.sizeValue size v scope t).1 = true := by
    rcases passed with hidden | ⟨optional, e, fails⟩
    · have given : (ev.sizeValue size v scope t).1 = .ok none := by
        have applied : ev.applies size.guard v scope t =
            (.ok false, (ev.applies size.guard v scope t).2) := Prod.ext hidden rfl
        rw [Evaluator.sizeValue, bind_apply, applied]
        rfl
      rw [given]
      rfl
    · rw [fails]
      exact optional
  have passes (t' : σ) (here : t' = t) :
      size.isPassed (ev.sizeValue size v scope t').1 = true ∧
        (ev.sizeValue size v scope t').2 = t' := by
    subst here
    exact ⟨isPassed, Evaluator.keeps_sizeValue v scope stateless size t'⟩
  have erased := firstOf_erase before behind (fun (t' : σ) _ => Eq.refl t') keeps passes
    (fun p t' same => by rw [same]; exact ⟨rfl, rfl⟩) rfl
  dsimp only
  rw [ev.declaredSize_eq, ev.declaredSize_eq, erased.1, erased.2]

/-! ## Every list of candidates -/

variable (engine bound kind v scope) in
/-- **The first candidate that counts wins.**

- Of templates, below the depth limit, and of sizes the first decides alone, with what it gives or
  with its failure: the result and all that was done meanwhile are the same whatever stands behind
  it. If there is none, the text is the plain one, and a size is missing.
- A candidate that is hidden, or optional and fails, may as well not be there. This holds of every
  stateless debugger, except for an optional template whose body fails: there one name has to stand
  for one type.
- A declared size has at most 32 bits. -/
theorem first_candidate_counts (below : s.depth < engine.options.get .maxFormatDepth) :
    DecidesFirst (engine.attempted kind v scope s) s.deeper (engine.made bound kind v scope s)
      (fun text t => .ok (text, { t with depth := s.depth }))
      (fun t => (engine.text bound kind v t).map fun r =>
        (.ok r.1, { r.2 with depth := s.depth })) ∧
    DecidesFirst (engine.evaluator.sizeValue · v scope) s.target
      (fun sizes => engine.evaluator.declaredSize v scope sizes s.target)
      (fun n t => (n.mapError .evaluation, t)) (fun t => (.error .noSize, t)) ∧
    ExpandError.noSize.message = "Valid <Size> node not found." ∧
    (engine.debugger.Stateless → ∀ candidate : GuardedText,
      (engine.evaluator.Hides v scope s.target candidate ∨
          candidate.FailsAllowed
            (engine.evaluator.applies candidate.guard v scope s.target).1 →
        Ignored (engine.made bound kind v scope s) candidate) ∧
      (engine.inspector.NamesTypes → (∀ p, engine.options.get p < wordCount) → s.Sound →
          s.Trusts engine → v.KnownIn s →
        candidate.FailsAllowed (engine.attempted kind v scope s candidate s.deeper).1 →
        Ignored (fun templates => answerOf (engine.made bound kind v scope s templates))
          candidate) ∧
      (engine.evaluator.Hides v scope s.target candidate ∨
          candidate.FailsAllowed (engine.evaluator.sizeValue candidate v scope s.target).1 →
        Ignored (fun sizes => engine.evaluator.declaredSize v scope sizes s.target) candidate)) ∧
    ∀ sizes n, (engine.evaluator.declaredSize v scope sizes s.target).1 = .ok n → n < 2 ^ 32 := by
  refine ⟨decidesFirst_made below, decidesFirst_declaredSize _ _, rfl,
    fun stateless candidate => ⟨?_, ?_, ?_⟩, fun sizes => ?_⟩
  · exact ignored_of_guard stateless below
  · intro names words sound trusts led fails
    exact ignored_of_failing names stateless words below sound trusts led fails
  · exact ignored_size stateless
  · exact ensures_lift_iff.mp
      (engine.evaluator.ensures_declaredSize_lt v scope sizes s.target)

end

/-! ## Two types -/

namespace TwoTypes

/-- An optional template: the text of the first member, and something that is not there. -/
def broken : GuardedText where
  value := "\x7ba\x7d\x7bgone\x7d"
  guard := { optional := true }

/-- A template: the text of the second member. -/
def other : GuardedText where
  value := "\x7bb\x7d"

/-- What the first one comes to. -/
def attemptOf (shared : Bool) : Except EvalError (Option String) :=
  ((engine shared).attempted .value context.owner context.scope session broken session.deeper).1

/-- The text of the row that is made of templates, unless it fails. -/
def textOf (shared : Bool) (templates : List GuardedText) : Option (Option String) :=
  (answerOf ((engine shared).made 5 .value context.owner context.scope session templates)).map
    Except.toOption

/-- **If the types have different names, the template that fails is passed over**, and the row is
shown as without it. As a size it is passed over too, so that there is none. -/
theorem passed_over_of_different : broken.FailsAllowed (attemptOf false) ∧
    textOf false [broken, other] = textOf false [other] ∧
    textOf false [other] = some (some "two") ∧
    (engine false).evaluator.declaredSize context.owner context.scope [broken] () =
      (.error .noSize, ()) := by
  have words (p : Property) : (engine false).options.get p < wordCount := by
    cases p <;> decide
  have trusts : session.Trusts (engine false) := RuleBook.faithful_of_forgotten _
  have fails : broken.FailsAllowed (attemptOf false) :=
    GuardedText.failsAllowed_of_isOk rfl (by decide +kernel)
  obtain ⟨-, sizes, -, ignored, -⟩ := first_candidate_counts (engine false) 5 .value context.owner
    context.scope (s := session) (by decide)
  obtain ⟨-, template, size⟩ := ignored (stateless false) broken
  have same := template namesTypes words (Session.sound_of_empty rfl) trusts trivial fails
    [] [other]
  refine ⟨fails, ?_, by decide +kernel, ?_⟩
  · exact congrArg (Option.map Except.toOption) same
  · have failed : broken.FailsAllowed
        ((engine false).evaluator.sizeValue broken context.owner context.scope ()).1 :=
      GuardedText.failsAllowed_of_isOk rfl (by decide +kernel)
    exact (size (.inr failed) [] []).trans (sizes.none [] () (.nil ()))

/-- **If the types have the same name, it is not as if it were not there**: while it was filled the
rule of the first member was looked up, and is then taken for the second. -/
theorem passed_over_shows : (debugger true).Stateless ∧ broken.FailsAllowed (attemptOf true) ∧
    textOf true [broken, other] = some (some "one") ∧ textOf true [other] = some (some "two") := by
  refine ⟨stateless true, GuardedText.failsAllowed_of_isOk rfl ?_, ?_, ?_⟩
  · decide +kernel
  · decide +kernel
  · decide +kernel

end TwoTypes

end WatchView
