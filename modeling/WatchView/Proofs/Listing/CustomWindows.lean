import WatchView.Proofs.Listing.CustomPaging
import WatchView.Proofs.Listing.CustomProgram
import WatchView.Proofs.Listing.Elements
import WatchView.Proofs.Program.Items
/-!
# Custom lists count the rows they show

A run shows no more rows than it is sent for, so what is counted is a word. A
window of a custom list has as many rows as were counted (`ensures_rows`),
unless the list has a declared size and an evaluation failed: then the program
does not run again, and the rows behind the failure are missing.
-/

namespace WatchView.CustomListing

open Bounded

variable {σ ν : Type} {P : Nat → Prop}

/-! ## What a run changes -/

/-- A list that can be short of the rows it counts: its size is declared and an
evaluation failed. -/
def IsShort (l : CustomListing ν) : Prop := l.failed = true ∧ l.size.isSome

/-- A list after a run for so many rows. -/
structure RanTo (target : Nat) (l l' : CustomListing ν) : Prop where
  same : l' = { l with
    run := l'.run, shown := l'.shown, failed := l'.failed, shortfall := l'.shortfall }
  running : l'.run.isSome = l.run.isSome
  failed : l.failed = true → l'.failed = true
  shown : l'.shown.size ≤ max l.shown.size target
  idle : l.run = none → l'.shown.size = l.shown.size
  leads : ∀ P, l.Within P → l'.Within P

theorem RanTo.refl (target : Nat) (l : CustomListing ν) : RanTo target l l where
  same := rfl
  running := rfl
  failed h := h
  shown := Nat.le_max_left _ _
  idle _ := rfl
  leads _ h := h

theorem RanTo.trans {target : Nat} {l₁ l₂ l₃ : CustomListing ν} (h : RanTo target l₁ l₂)
    (h' : RanTo target l₂ l₃) : RanTo target l₁ l₃ where
  same := by
    rw [h'.same, h.same]
  running := h'.running.trans h.running
  failed failed := h'.failed (h.failed failed)
  shown := by
    have first := h.shown
    have second := h'.shown
    omega
  idle fresh := by
    have fresh' : l₂.run = none := by
      have running := h.running
      rw [fresh] at running
      exact Option.isNone_iff_eq_none.mp (by simpa using running)
    exact (h'.idle fresh').trans (h.idle fresh)
  leads P led := h'.leads P (h.leads P led)

/-- What the program shows leads nowhere. -/
theorem host_showsOnly (ev : Evaluator σ ν) (c : Context ν) :
    (host ev c).ShowsOnly fun row => ∀ P, row.Within P := by
  intro name value p row h P
  rw [outcome_host_item] at h
  split at h
  · cases h
  · rename_i shownAs t _
    unfold shownItem at h
    rcases evaluated : ev.evaluate value c.owner c.scope (some shownAs) t with ⟨_ | answer, t'⟩
    · simp only [bind, StateT.bind, evaluated] at h
      cases h
    · simp only [bind, StateT.bind, evaluated] at h
      cases h
      exact answer.within_toVariable.decorated _ _

theorem size_shown_fail (l : CustomListing ν) (e : EvalError) :
    (l.fail e).shown.size ≤ l.shown.size + 1 := by
  unfold fail
  dsimp only
  split
  · exact Nat.le_succ _
  · exact Nat.le_of_eq (Array.size_push _)

theorem Within.fail {l : CustomListing ν} (led : l.Within P) (e : EvalError) :
    (l.fail e).Within P := by
  refine ⟨led.owner, led.standing, fun row h => ?_, led.shortfall⟩
  unfold CustomListing.fail at h
  dsimp only at h
  split at h
  · exact led.shown row h
  · rcases Array.mem_push.mp h with h | rfl
    · exact led.shown row h
    · exact Variable.within_error _

/-- A step goes towards the rows asked for. -/
theorem ranTo_step (ev : Evaluator σ ν) {target : Nat} {l : CustomListing ν} {run : ProgramRun ν}
    (here : l.run = some run) (few : l.shown.size < target) (t : σ) :
    RanTo target l (l.step ev run t).1 := by
  rw [step_eq]
  generalize hr : outcome (run.program.step (host ev { l.context with scope := run.scope }))
    (run.items, t) = r
  have shows := Sequence.shown_step
    (host_showsOnly ev { l.context with scope := run.scope }) run.program (run.items, t)
  rw [hr] at shows
  obtain ⟨⟨result, program⟩, items, t'⟩ := r
  have begun (none : l.run = none) : False := by
    rw [here] at none
    cases none
  dsimp only
  unfold afterStep
  split
  -- the step shows an item, or ends the program or does nothing, or fails
  · rename_i row
    refine ⟨rfl, ?_, fun failed => failed, ?_, fun none => (begun none).elim, fun P led => ?_⟩
    · rw [here]
      rfl
    · dsimp only
      rw [Array.size_push]
      omega
    · refine ⟨led.owner, led.standing, fun row' h => ?_, led.shortfall⟩
      rcases Array.mem_push.mp h with h | rfl
      · exact led.shown row' h
      · exact shows row' rfl P
  · refine ⟨rfl, ?_, fun failed => failed, Nat.le_max_left _ _, fun _ => rfl,
      fun P led => { led with }⟩
    rw [here]
    rfl
  · rename_i e
    refine ⟨rfl, ?_, fun _ => rfl, ?_, fun none => (begun none).elim, fun P led => ?_⟩
    · rw [here]
      rfl
    · have most := size_shown_fail { l with run := some { run with program, items } } e
      dsimp only at most
      omega
    · have led' : ({ l with run := some { run with program, items } } : CustomListing ν).Within P :=
        { led with }
      exact led'.fail e

theorem RunsOn.ranTo {ev : Evaluator σ ν} {target : Nat} {p q : CustomListing ν × σ}
    (h : RunsOn ev target p q) : RanTo target p.1 q.1 := by
  induction h with
  | halted => exact .refl _ _
  | step here going _ ih =>
    refine .trans (ranTo_step ev here ?_ _) ih
    by_contra enough
    exact going fun run _ => .inl (by omega)

theorem Within.shortfallRow {l : CustomListing ν} (led : l.Within P) (size : Nat) :
    (l.shortfallRow size).Within P := by
  unfold CustomListing.shortfallRow
  cases here : l.shortfall with
  | none => exact Variable.within_error _
  | some row => exact led.shortfall row here

theorem ranTo_padded (l : CustomListing ν) (target : Nat) : RanTo target l (l.padded target) := by
  unfold padded
  split
  · exact .refl _ _
  · rename_i size declared
    dsimp only
    split
    · rename_i missing
      refine ⟨rfl, rfl, fun failed => failed, ?_, fun fresh => ?_, fun P led => ?_⟩
      · dsimp only
        rw [Array.size_append, Array.size_replicate]
        omega
      · simp [hasEnded, fresh] at missing
      · have row := led.shortfallRow size
        refine ⟨led.owner, led.standing, fun row' h => ?_, fun row' h => ?_⟩
        · rcases Array.mem_append.mp h with h | h
          · exact led.shown row' h
          · rw [Array.eq_of_mem_replicate h]
            exact row
        · cases h
          exact row
    · exact .refl _ _

/-- **A run shows no more rows than it is sent for.** -/
theorem RunsTo.ranTo {ev : Evaluator σ ν} {target : Nat} {p q : CustomListing ν × σ}
    (h : RunsTo ev target p q) : RanTo target p.1 q.1 := by
  by_cases frozen : p.1.IsFrozen
  · rw [(runsTo_of_isFrozen frozen).mp h]
    exact .refl _ _
  · obtain ⟨m, first, rfl⟩ := (runsTo_of_not_isFrozen frozen).mp h
    exact first.ranTo.trans (ranTo_padded _ _)

theorem ensures_runTo (ev : Evaluator σ ν) (bound target : Nat) (l : CustomListing ν) (t : σ)
    {P : CustomListing ν → σ → Prop} (h : ∀ q, RunsTo ev target (l, t) q → P q.1 q.2) :
    Ensures (runTo ev bound target l) t P :=
  fun l' t' ended => h (l', t') ⟨bound, ended⟩

/-- A list with the rows does not run. -/
theorem RunsTo.eq_of_enough {ev : Evaluator σ ν} {target : Nat} {p q : CustomListing ν × σ}
    (h : RunsTo ev target p q) (enough : target ≤ p.1.shown.size) : q = p := by
  by_cases frozen : p.1.IsFrozen
  · exact (runsTo_of_isFrozen frozen).mp h
  · obtain ⟨m, first, rfl⟩ := (runsTo_of_not_isFrozen frozen).mp h
    obtain rfl := first.eq_of_halts fun run _ => .inl enough
    rw [padded_of_enough enough]

/-- **A list with a declared size gets the rows it is asked for**, unless an
evaluation fails. -/
theorem RunsTo.enough {ev : Evaluator σ ν} {target n : Nat} {p q : CustomListing ν × σ}
    (h : RunsTo ev target p q) (declared : p.1.size = some n) (running : p.1.run.isSome)
    (sound : p.1.standing.isSound = true) (le : target ≤ n) :
    q.1.failed = true ∨ target ≤ q.1.shown.size := by
  -- a run that halts short of the target has failed, or the program has ended and was padded
  by_cases frozen : p.1.IsFrozen
  · rw [(runsTo_of_isFrozen frozen).mp h]
    rcases isFrozen_iff.mp frozen with failed | unsound
    · exact .inl failed
    · rw [sound] at unsound
      cases unsound
  · obtain ⟨m, first, rfl⟩ := (runsTo_of_not_isFrozen frozen).mp h
    have declared' := first.extended.size.trans declared
    dsimp only
    rw [failed_padded]
    by_cases failed : m.1.failed = true
    · exact .inl failed
    · refine .inr ?_
      cases ended : m.1.hasEnded with
      | true =>
        rw [padded_eq declared' ended]
        split
        · omega
        · simp only [Array.size_append, Array.size_replicate]
          omega
      | false =>
        rw [padded_of_not_hasEnded ended]
        obtain ⟨run, here⟩ := Option.isSome_iff_exists.mp (first.ranTo.running.trans running)
        rcases first.halts run here with enough | finished | failed'
        · exact enough
        · simp [hasEnded, here, finished, failed] at ended
        · exact absurd failed' failed

/-! ## What is counted -/

/-- A custom list as its own work leaves it: it has a word of rows; a list with
a declared size has begun, and one that has not begun has no rows; and an
up-to-date count is the declared size or counts rows that are there. -/
structure Valid (l : CustomListing ν) : Prop where
  limit : l.limit < wordCount
  shown : l.shown.size < wordCount
  size : ∀ m, l.size = some m → m < wordCount ∧ l.run.isSome
  fresh : l.run = none → l.shown.size = 0
  counted : l.current = true → ∀ n, l.standing = .counted n →
    n = 0 ∨ l.size = some n ∨ l.size = none ∧ n ≤ l.shown.size

/-- Work on a custom list. -/
structure Onward (l l' : CustomListing ν) : Prop where
  valid : l.Valid → l'.Valid
  limit : l'.limit = l.limit
  short : l.IsShort → l'.IsShort
  leads : ∀ P, l.Within P → l'.Within P

theorem Onward.refl (l : CustomListing ν) : l.Onward l :=
  ⟨fun h => h, rfl, fun h => h, fun _ h => h⟩

/-- A list while it is counted. -/
structure Counted (l l' : CustomListing ν) : Prop where
  same : l' = { l with
    run := l'.run, size := l'.size, shown := l'.shown, failed := l'.failed
    shortfall := l'.shortfall }
  shown : l.Valid → l'.shown.size < wordCount
  size : l.Valid → ∀ m, l'.size = some m → m < wordCount ∧ l'.run.isSome
  fresh : l.Valid → l'.run = none → l'.shown.size = 0
  short : l.Valid → l.IsShort → l'.IsShort
  leads : ∀ P, l.Within P → l'.Within P

theorem Counted.refl (l : CustomListing ν) : l.Counted l :=
  ⟨rfl, fun h => h.shown, fun h => h.size, fun h => h.fresh, fun _ h => h, fun _ h => h⟩

theorem quiet_declareAll (ev : Evaluator σ ν) (owner : Variable ν) (decls : List VariableDecl)
    (scope : Scope (Variable ν)) : Run.Quiet (declareAll ev owner decls scope) := by
  induction decls generalizing scope with
  | nil => exact Run.quiet_pure _
  | cons decl decls ih =>
    unfold declareAll
    refine Run.Quiet.bind (fun _ => rfl) fun scratch => ?_
    refine Run.Quiet.bind (Run.quiet_target _) fun result => ?_
    cases result with
    | error e => exact Run.quiet_pure _
    | ok scope => exact ih scope

/-- A list that begins, with its size. -/
theorem counted_begun {l : CustomListing ν} (fresh : l.run = none) (run : ProgramRun ν)
    (size : Option Nat) (small : l.Valid → ∀ m, size = some m → m < wordCount) :
    l.Counted { l with run := some run, size := size } := by
  refine ⟨rfl, fun valid => valid.shown, fun valid m hm => ⟨small valid m hm, rfl⟩,
    fun _ h => (nomatch h), fun valid short => ?_, fun P led => { led with }⟩
  obtain ⟨m, declared⟩ := Option.isSome_iff_exists.mp short.2
  have begun := (valid.size m declared).2
  rw [fresh] at begun
  cases begun

theorem size_eq_none {l : CustomListing ν} (valid : l.Valid) (fresh : l.run = none) :
    l.size = none := by
  cases declared : l.size with
  | none => rfl
  | some m =>
    have begun := (valid.size m declared).2
    rw [fresh] at begun
    cases begun

/-- A list that fails when it begins. -/
theorem counted_failed {l : CustomListing ν} (fresh : l.run = none) (run : ProgramRun ν)
    (e : EvalError) : l.Counted (fail { l with run := some run } e) := by
  refine ⟨rfl, fun valid => ?_, fun valid m hm => ?_, fun _ h => (nomatch h),
    fun valid short => ⟨rfl, short.2⟩, fun P led => ?_⟩
  · have most := size_shown_fail { l with run := some run } e
    have few := valid.fresh fresh
    dsimp only at most
    unfold wordCount
    omega
  · have declared : l.size = some m := hm
    rw [size_eq_none valid fresh] at declared
    cases declared
  · have led' : ({ l with run := some run } : CustomListing ν).Within P := { led with }
    exact led'.fail e

theorem ensures_start (ev : Evaluator σ ν) (program : Sequence) {l : CustomListing ν}
    (fresh : l.run = none) (s : Session σ ν) :
    Ensures (liftM (l.start ev program) : Search σ ν _) s fun l' s' =>
      s'.listings = s.listings ∧ l.Counted l' := by
  unfold start
  refine ensures_lift_bind_iff.mpr ?_
  refine ((quiet_declareAll ev _ _ _).ensures s).mono fun result s₁ h₁ => ?_
  cases result with
  | error e => exact ensures_lift_pure_iff.mpr ⟨h₁, counted_failed fresh _ e⟩
  | ok scope =>
    refine ensures_lift_bind_iff.mpr ?_
    have sized : Ensures (liftM (liftM (ev.declaredSize l.context.owner scope l.rule.sizes) :
        Run σ ν _) : Search σ ν _) s₁ fun r s' =>
        s'.listings = s₁.listings ∧ ∀ n, r = .ok n → n < wordCount :=
      ensures_lift_iff.mpr ⟨rfl, ensures_lift_iff.mp (ev.ensures_declaredSize _ _ _ s₁.target)⟩
    refine sized.mono fun r s₂ h => ?_
    obtain ⟨h₂, small⟩ := h
    have same := h₂.trans h₁
    have without : l.Counted { l with run := some { program, scope } } :=
      counted_begun fresh _ l.size fun valid m hm => (valid.size m hm).1
    rcases r with e | n
    · cases e with
      | evaluation e => exact ensures_lift_pure_iff.mpr ⟨same, counted_failed fresh _ e⟩
      | missing | noSize | strayBranch | unknownInstruction =>
        exact ensures_lift_pure_iff.mpr ⟨same, without⟩
    · refine ensures_lift_pure_iff.mpr ⟨same, counted_begun fresh _ (some n) fun _ m hm => ?_⟩
      cases hm
      exact small n rfl

theorem ensures_started (ev : Evaluator σ ν) (l : CustomListing ν) (s : Session σ ν) :
    Ensures (liftM (l.started ev) : Search σ ν _) s fun r s' =>
      s'.listings = s.listings ∧ ∀ l', r = .ok l' → l.Counted l' := by
  unfold started
  by_cases begun : l.run.isSome = true
  · rw [if_pos begun]
    refine ensures_lift_pure_iff.mpr ⟨rfl, fun l' h => ?_⟩
    cases h
    exact .refl l
  · rw [if_neg begun]
    split
    · exact ensures_lift_pure_iff.mpr ⟨rfl, fun l' h => (nomatch h)⟩
    · refine ensures_lift_bind_iff.mpr ?_
      refine (ensures_start ev _ (by simpa using begun) s).mono fun l₁ s' h => ?_
      refine ensures_lift_pure_iff.mpr ⟨h.1, fun l' hl => ?_⟩
      cases hl
      exact h.2

theorem effectiveLimit_lt {options : Options} (words : ∀ p, options.get p < wordCount)
    {l : CustomListing ν} (limit : l.limit < wordCount) :
    l.effectiveLimit options < wordCount := by
  unfold effectiveLimit
  split
  · exact words _
  · exact limit

/-- Running is part of counting. -/
theorem Counted.ranTo {target : Nat} {l l₁ l₂ : CustomListing ν} (h : l.Counted l₁)
    (ran : RanTo target l₁ l₂) (small : l.Valid → target < wordCount) : l.Counted l₂ where
  same := by
    rw [ran.same, h.same]
  shown valid := Nat.lt_of_le_of_lt ran.shown (Nat.max_lt.mpr ⟨h.shown valid, small valid⟩)
  size valid m hm := by
    have declared : l₁.size = some m := by
      rw [ran.same] at hm
      exact hm
    rw [ran.running]
    exact h.size valid m declared
  fresh valid fresh := by
    have fresh' : l₁.run = none := by
      have running := ran.running
      rw [fresh] at running
      exact Option.isNone_iff_eq_none.mp (by simpa using running.symm)
    exact (ran.idle fresh').trans (h.fresh valid fresh')
  short valid short := by
    refine ⟨ran.failed (h.short valid short).1, ?_⟩
    rw [ran.same]
    exact (h.short valid short).2
  leads P led := ran.leads P (h.leads P led)

/-- A list counts its declared size, or the rows it has. -/
theorem ensures_count (engine : Engine σ ν) (words : ∀ p, engine.options.get p < wordCount)
    (bound : Nat) (l : CustomListing ν) (s : Session σ ν) :
    Ensures (l.count engine bound) s fun r s' =>
      s'.listings = s.listings ∧ l.Counted r.2 ∧ ∀ n, r.1 = .ok n →
        r.2.size = some n ∨ r.2.size = none ∧ n ≤ r.2.shown.size := by
  unfold count
  refine (ensures_started engine.evaluator l s).bind fun r s₁ h => ?_
  obtain ⟨h₁, counted⟩ := h
  cases r with
  | error e => exact ensures_pure_iff.mpr ⟨h₁, .refl l, fun n h => (nomatch h)⟩
  | ok l₁ =>
    have counted := counted l₁ rfl
    dsimp only
    -- a declared size is the count; without one the items up to the limit are
    cases declared : l₁.size with
    | some n =>
      refine ensures_pure_iff.mpr ⟨h₁, counted, fun m hm => .inl ?_⟩
      cases hm
      exact declared
    | none =>
      refine Ensures.bind (ensures_ofTarget_iff.mpr ?_) fun l₂ s₂ h => ensures_pure_iff.mpr h
      refine ensures_runTo _ _ _ _ _ fun q run => ?_
      have ran := run.ranTo
      refine ⟨h₁, counted.ranTo ran fun valid => ?_, fun n hn => .inr ⟨?_, ?_⟩⟩
      · refine effectiveLimit_lt words ?_
        rw [counted.same]
        exact valid.limit
      · rw [ran.same]
        exact declared
      · cases hn
        exact Nat.le_refl _

theorem Counted.onward {l l' : CustomListing ν} (h : l.Counted l') {st : Standing ν}
    (valid : l.Valid) (counts : st.Counts fun n =>
      n = 0 ∨ l'.size = some n ∨ l'.size = none ∧ n ≤ l'.shown.size) :
    l.Onward { l' with standing := st, current := true } where
  valid _ := by
    refine ⟨?_, h.shown valid, h.size valid, h.fresh valid, fun _ n hn => counts.counted n hn⟩
    rw [h.same]
    exact valid.limit
  limit := by
    rw [h.same]
  short short := h.short valid short
  leads P led := { h.leads P led with standing := counts.leads P }

theorem Valid.ranTo {target : Nat} {l l' : CustomListing ν} (h : l.Valid)
    (ran : RanTo target l l') (extended : l.Extends l') (small : target < wordCount) :
    l'.Valid := by
  have grown : l.shown.size ≤ l'.shown.size := extended.shown.length_le
  have most := ran.shown
  have before := h.shown
  refine ⟨?_, by omega, fun m hm => ?_, fun fresh => ?_, fun current n hn => ?_⟩
  · rw [ran.same]
    exact h.limit
  · rw [extended.size] at hm
    rw [ran.running]
    exact h.size m hm
  · have fresh' : l.run = none := by
      have running := ran.running
      rw [fresh] at running
      exact Option.isNone_iff_eq_none.mp (by simpa using running.symm)
    exact (ran.idle fresh').trans (h.fresh fresh')
  · rw [extended.current] at current
    rw [extended.standing] at hn
    rw [extended.size]
    rcases h.counted current n hn with zero | declared | ⟨undeclared, few⟩
    · exact .inl zero
    · exact .inr (.inl declared)
    · exact .inr (.inr ⟨undeclared, by omega⟩)

/-- **A run gets the rows that were counted**, unless the list is short. -/
theorem RunsTo.enough_of_counted {ev : Evaluator σ ν} {target n : Nat} {l : CustomListing ν}
    {t : σ} {q : CustomListing ν × σ} (run : RunsTo ev target (l, t) q) (valid : l.Valid)
    (current : l.current = true) (counted : l.standing = .counted n) (le : target ≤ n)
    (whole : ¬ q.1.IsShort) : q.1.failed = l.failed ∧ target ≤ q.1.shown.size := by
  have enough (few : target ≤ l.shown.size) : q.1.failed = l.failed ∧ target ≤ q.1.shown.size := by
    rw [run.eq_of_enough few]
    exact ⟨rfl, few⟩
  rcases valid.counted current n counted with rfl | declared | ⟨undeclared, few⟩
  · exact enough (by omega)
  · have sound : l.standing.isSound = true := by
      rw [counted]
      rfl
    have unfailed : ¬ q.1.failed = true := by
      intro failed
      refine whole ⟨failed, ?_⟩
      rw [run.extended.size]
      exact Option.isSome_iff_exists.mpr ⟨n, declared⟩
    refine ⟨?_, (run.enough declared (valid.size n declared).2 sound le).resolve_left unfailed⟩
    have before : ¬ l.failed = true := fun failed => unfailed (run.ranTo.failed failed)
    rw [Bool.not_eq_true] at before unfailed
    rw [before, unfailed]
  · exact enough (by omega)

/-- A custom list that was settled is up to date. -/
theorem ensures_settled (engine : Engine σ ν) (words : ∀ p, engine.options.get p < wordCount)
    (bound : Nat) {l : CustomListing ν} (valid : l.Valid) (s : Session σ ν) :
    Ensures (l.settled engine bound) s fun r s' =>
      s'.listings = s.listings ∧ l.Onward r.2 ∧ r.2.standing = r.1 ∧ r.2.current = true ∧
        (l.current = true → r = (l.standing, l)) := by
  unfold settled
  by_cases current : l.current = true
  · rw [if_pos current]
    exact ensures_pure_iff.mpr ⟨rfl, .refl l, rfl, current, fun _ => rfl⟩
  · rw [if_neg current]
    refine (Standing.ensures_settle (I := fun s' => s'.listings = s.listings) (G := l.Counted)
      (K := fun l' n => n = 0 ∨ l'.size = some n ∨ l'.size = none ∧ n ≤ l'.shown.size)
      (ensures_target_iff.mpr (ensures_lift_iff.mpr rfl)) (.refl l) (fun _ _ => .inl rfl)
      fun s₁ h₁ => ?_).bind fun r s' h => ensures_pure_iff.mpr ?_
    · refine (l.ensures_count engine words bound s₁).mono fun r s₂ h => ?_
      exact ⟨h.1.trans h₁, h.2.1, fun n hn => .inr (h.2.2 n hn)⟩
    · obtain ⟨quiet, counted, counts⟩ := h
      exact ⟨quiet, counted.onward valid counts, rfl, rfl, fun h => absurd h current⟩

/-- **A window of a custom list** has the rows that were counted, unless the
list is short of them. -/
theorem ensures_rows (engine : Engine σ ν) (words : ∀ p, engine.options.get p < wordCount)
    (bound : Nat) {l : CustomListing ν} (valid : l.Valid) (start count : Nat)
    (s : Session σ ν) :
    Ensures (l.rows engine bound start count) s fun r s' =>
      s'.listings = s.listings ∧ l.Onward r.2 ∧
        (∀ P, l.Within P → ∀ row ∈ r.1, row.Within P) ∧
        (l.current = true → ¬ r.2.IsShort →
          r.2.current = true ∧ r.2.standing = l.standing ∧ r.2.isSound = l.isSound ∧
            r.2.size = l.size ∧
            r.1.length = min (windowEnd start count) l.standing.count - start) := by
  unfold rows
  refine (ensures_settled engine words bound valid s).bind fun r s₁ h => ?_
  obtain ⟨st, l₁⟩ := r
  obtain ⟨h₁, onward, settled, current₁, same⟩ := h
  dsimp only at onward settled current₁
  subst settled
  dsimp only
  cases standing : l₁.standing with
  | failed row =>
    refine ensures_pure_iff.mpr ⟨h₁, onward, fun P led row' h => ?_, fun current _ => ?_⟩
    · obtain rfl := eq_of_mem_clip_singleton h
      have led := (onward.leads P led).standing
      rw [standing] at led
      exact led
    · obtain rfl : l₁ = l := congrArg Prod.snd (same current)
      refine ⟨current₁, rfl, rfl, rfl, ?_⟩
      rw [standing]
      exact length_clip _ _ _
  | counted n =>
    refine Ensures.bind (ensures_ofTarget_iff.mpr ?_) fun l₂ s₂ h => ensures_pure_iff.mpr h
    refine ensures_runTo _ _ _ _ _ fun q run => ?_
    have ran := run.ranTo
    have window := windowEnd_lt start count
    refine ⟨h₁, ⟨fun valid => ?_, ?_, fun short => ?_, fun P led => ?_⟩, fun P led row h => ?_,
      fun current whole => ?_⟩
    · exact (onward.valid valid).ranTo ran run.extended (by omega)
    · rw [ran.same]
      exact onward.limit
    · refine ⟨ran.failed (onward.short short).1, ?_⟩
      rw [ran.same]
      exact (onward.short short).2
    · exact ran.leads P (onward.leads P led)
    · obtain ⟨i, -, here⟩ := List.mem_filterMap.mp h
      exact (ran.leads P (onward.leads P led)).shown row (Array.mem_of_getElem? here)
    · obtain rfl : l₁ = l := congrArg Prod.snd (same current)
      -- the rows were counted, so that running on for the window does not add to them
      obtain ⟨failed, enough⟩ :=
        run.enough_of_counted valid current standing (Nat.min_le_right _ _) whole
      refine ⟨run.extended.current.trans current₁, run.extended.standing, ?_,
        run.extended.size, ?_⟩
      · unfold isSound
        rw [failed, run.extended.standing, ran.same]
      · rw [filterMap_shown n (start, count), length_clip, List.length_take, standing]
        simp only [Array.length_toList, Standing.count]
        omega

end WatchView.CustomListing
