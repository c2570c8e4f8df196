import WatchView.Listing.Custom
import WatchView.Proofs.Bounded
import WatchView.Proofs.Listing.Windows
import WatchView.Proofs.Program.Meaning
/-!
# Running a custom list in parts

The program of a custom list is run for as many items as someone asks for.
Asking for parts one after the other, in any order, is asking for the
largest (`runsThrough_iff`): a run goes on where the one before stopped, and
a run for fewer items than there are does nothing. The windows of a list
are therefore windows of one answer (`showsThrough_iff`), whatever was asked
for before.

That a run goes on holds of the program (`runOn_iff_of_le`). Rows for missing
items are made only when the program has ended, and all of them are the same
row, the one that was made first (`padded_padded`).
-/

namespace WatchView.CustomListing

variable {σ ν : Type}

/-! ## What a run keeps -/

/-- A list as it may be after its program ran on: it has the rows it had, and
perhaps more. -/
structure Extends (l l' : CustomListing ν) : Prop where
  standing : l'.standing = l.standing
  current : l'.current = l.current
  size : l'.size = l.size
  shown : l.shown.toList <+: l'.shown.toList

theorem Extends.refl (l : CustomListing ν) : l.Extends l :=
  ⟨rfl, rfl, rfl, List.prefix_refl _⟩

theorem Extends.trans {l₁ l₂ l₃ : CustomListing ν} (h : l₁.Extends l₂) (h' : l₂.Extends l₃) :
    l₁.Extends l₃ :=
  ⟨h'.standing.trans h.standing, h'.current.trans h.current, h'.size.trans h.size,
    h.shown.trans h'.shown⟩

theorem extends_fail (l : CustomListing ν) (e : EvalError) : l.Extends (l.fail e) := by
  refine ⟨rfl, rfl, rfl, ?_⟩
  unfold fail
  dsimp only
  split
  · exact List.prefix_refl _
  · rw [Array.toList_push]
    exact List.prefix_append _ _

/-- The list after a step of its program with this result. -/
def afterStep (l : CustomListing ν) (run : ProgramRun ν) :
    Except EvalError (Step (Variable ν)) → CustomListing ν
  | .ok (.item row) => { l with run := some run, shown := l.shown.push row }
  | .ok _ => { l with run := some run }
  | .error e => fail { l with run := some run } e

theorem step_eq (ev : Evaluator σ ν) (l : CustomListing ν) (run : ProgramRun ν) (s : σ) :
    l.step ev run s =
      let r := outcome (run.program.step (host ev { l.context with scope := run.scope }))
        (run.items, s)
      (l.afterStep { run with program := r.1.2, items := r.2.1 } r.1.1, r.2.2) := by
  rcases h : run.program.step (host ev { l.context with scope := run.scope }) run.items s with
    ⟨⟨⟨result, program⟩, items⟩, s'⟩
  simp only [step, outcome, StateT.run, bind, StateT.bind, h]
  rcases result with e | _ | row | _ <;> rfl

theorem extends_afterStep (l : CustomListing ν) (run : ProgramRun ν)
    (r : Except EvalError (Step (Variable ν))) : l.Extends (l.afterStep run r) := by
  unfold afterStep
  split
  · refine ⟨rfl, rfl, rfl, ?_⟩
    rw [Array.toList_push]
    exact List.prefix_append _ _
  · exact ⟨rfl, rfl, rfl, List.prefix_refl _⟩
  · have h := extends_fail { l with run := some run } ‹_›
    exact ⟨h.standing, h.current, h.size, h.shown⟩

theorem extends_padded (l : CustomListing ν) (target : Nat) : l.Extends (l.padded target) := by
  unfold padded
  split
  · exact .refl l
  · dsimp only
    split
    · refine ⟨rfl, rfl, rfl, ?_⟩
      rw [Array.toList_append]
      exact List.prefix_append _ _
    · exact .refl l

/-! ## Running the program -/

/-- A list that has nothing to run for a target: it has the rows, or its
program has ended, failed or not begun. -/
def Halts (target : Nat) (l : CustomListing ν) : Prop :=
  ∀ run, l.run = some run →
    target ≤ l.shown.size ∨ run.program.isFinished = true ∨ l.failed = true

theorem Halts.of_le {target target' : Nat} {l : CustomListing ν} (h : l.Halts target')
    (le : target ≤ target') : l.Halts target := by
  intro run hr
  rcases h run hr with enough | ended
  · exact .inl (by omega)
  · exact .inr ended

/-- `RunsOn ev target p q`: from the list and the state `p`, the program runs
until the list halts for a target, and leaves `q`. -/
inductive RunsOn (ev : Evaluator σ ν) (target : Nat) :
    CustomListing ν × σ → CustomListing ν × σ → Prop
  | halted {p : CustomListing ν × σ} (halts : p.1.Halts target) : RunsOn ev target p p
  | step {p q : CustomListing ν × σ} {run : ProgramRun ν} (here : p.1.run = some run)
      (going : ¬ p.1.Halts target) (others : RunsOn ev target (p.1.step ev run p.2) q) :
      RunsOn ev target p q

theorem runOn_succ (ev : Evaluator σ ν) (target bound : Nat) (p : CustomListing ν × σ) :
    runOn ev target (bound + 1) p.1 p.2 =
      match p.1.run with
      | none => .ok p
      | some run =>
        if target ≤ p.1.shown.size || run.program.isFinished || p.1.failed then .ok p
        else runOn ev target bound (p.1.step ev run p.2).1 (p.1.step ev run p.2).2 := by
  rw [runOn]
  cases p.1.run with
  | none => rfl
  | some run =>
    dsimp only
    split <;> rfl

/-- A list that halts is left as it is. -/
theorem Halts.runOn_eq (ev : Evaluator σ ν) {target : Nat} {p : CustomListing ν × σ}
    (halts : p.1.Halts target) (bound : Nat) : runOn ev target (bound + 1) p.1 p.2 = .ok p := by
  rw [runOn_succ]
  split
  · rfl
  · rename_i run hr
    rw [if_pos]
    have h := halts run hr
    simpa [or_assoc] using h

/-- That is what running the program within some bound comes to. -/
theorem runsOn_iff (ev : Evaluator σ ν) (target : Nat) (p q : CustomListing ν × σ) :
    RunsOn ev target p q ↔ ∃ bound, runOn ev target bound p.1 p.2 = .ok q := by
  constructor
  · intro h
    -- each step of the run takes one more of the bound
    induction h with
    | halted halts => exact ⟨1, halts.runOn_eq ev 0⟩
    | @step p q run here going others ih =>
      obtain ⟨bound, h⟩ := ih
      refine ⟨bound + 1, ?_⟩
      rw [runOn_succ, here]
      dsimp only
      rw [if_neg, h]
      intro stops
      apply going
      intro run' hr
      rw [here] at hr
      cases hr
      simpa [or_assoc] using stops
  · rintro ⟨bound, h⟩
    induction bound generalizing p with
    | zero => cases h
    | succ bound ih =>
      rw [runOn_succ] at h
      split at h
      · rename_i hr
        cases h
        refine .halted fun run hr' => ?_
        rw [hr] at hr'
        cases hr'
      · rename_i run hr
        split at h
        · rename_i stops
          cases h
          refine .halted fun run' hr' => ?_
          rw [hr] at hr'
          cases hr'
          simpa [or_assoc] using stops
        · rename_i goes
          refine .step hr (fun halts => goes ?_) (ih _ h)
          simpa [or_assoc] using halts run hr

namespace RunsOn

variable {ev : Evaluator σ ν} {target target' : Nat} {p m q : CustomListing ν × σ}

theorem halts (h : RunsOn ev target p q) : q.1.Halts target := by
  induction h with
  | halted halts => exact halts
  | step _ _ _ ih => exact ih

theorem unique {q' : CustomListing ν × σ} (h : RunsOn ev target p q)
    (h' : RunsOn ev target p q') : q' = q := by
  induction h with
  | halted halts =>
    cases h' with
    | halted => rfl
    | step _ going => exact absurd halts going
  | step here going _ ih =>
    cases h' with
    | halted halts => exact absurd halts going
    | step here' _ others =>
      rw [here] at here'
      cases here'
      exact ih others

theorem extended (h : RunsOn ev target p q) : p.1.Extends q.1 := by
  induction h with
  | halted => exact .refl _
  | step _ _ _ ih =>
    refine .trans ?_ ih
    rw [step_eq]
    exact extends_afterStep _ _ _

end RunsOn

/-- **A run for more goes on where a run for less stopped.** -/
theorem runsOn_iff_of_le {ev : Evaluator σ ν} {target target' : Nat} (le : target ≤ target')
    {p q : CustomListing ν × σ} :
    RunsOn ev target' p q ↔ ∃ m, RunsOn ev target p m ∧ RunsOn ev target' m q := by
  constructor
  · intro h
    induction h with
    | @halted p halts => exact ⟨p, .halted (halts.of_le le), .halted halts⟩
    | @step p q run here going others ih =>
      by_cases stops : p.1.Halts target
      · exact ⟨p, .halted stops, .step here going others⟩
      · obtain ⟨m, first, rest⟩ := ih
        exact ⟨m, .step here stops first, rest⟩
  · rintro ⟨m, first, rest⟩
    induction first with
    | halted => exact rest
    | step here going _ ih => exact .step here (fun h => going (h.of_le le)) (ih rest)

/-! ## Rows for missing items -/

theorem padded_of_not_hasEnded {l : CustomListing ν} (h : l.hasEnded = false) (target : Nat) :
    l.padded target = l := by
  unfold padded
  split
  · rfl
  · simp [h]

/-- Padding changes the rows and what it repeats, and nothing else. -/
theorem exists_padded_eq (l : CustomListing ν) (target : Nat) :
    ∃ shown shortfall, l.padded target = { l with shown, shortfall } := by
  unfold padded
  split
  · exact ⟨_, _, rfl⟩
  · dsimp only
    split <;> exact ⟨_, _, rfl⟩

@[simp] theorem run_padded (l : CustomListing ν) (target : Nat) :
    (l.padded target).run = l.run := by
  obtain ⟨_, _, same⟩ := l.exists_padded_eq target
  rw [same]

@[simp] theorem failed_padded (l : CustomListing ν) (target : Nat) :
    (l.padded target).failed = l.failed := by
  obtain ⟨_, _, same⟩ := l.exists_padded_eq target
  rw [same]

/-- Rows for missing items, with a declared size. -/
theorem padded_eq {l : CustomListing ν} {size : Nat} (declared : l.size = some size)
    (ended : l.hasEnded = true) (target : Nat) :
    l.padded target =
      if min target size ≤ l.shown.size then l
      else { l with
        shown := l.shown ++
          Array.replicate (min target size - l.shown.size) (l.shortfallRow size)
        shortfall := some (l.shortfallRow size) } := by
  unfold padded
  rw [declared]
  dsimp only
  rw [ended, Bool.true_and]
  by_cases enough : min target size ≤ l.shown.size
  · rw [if_pos enough, if_neg]
    simpa using by omega
  · rw [if_neg enough, if_pos]
    simpa using by omega

/-- A list that has the rows is left as it is. -/
theorem padded_of_enough {l : CustomListing ν} {target : Nat} (enough : target ≤ l.shown.size) :
    l.padded target = l := by
  cases declared : l.size with
  | none => simp [padded, declared]
  | some size =>
    cases ended : l.hasEnded with
    | false => exact padded_of_not_hasEnded ended target
    | true => rw [padded_eq declared ended, if_pos (by omega)]

/-- **Rows for missing items are made in parts as they are made at once**:
the row is the one made first. -/
theorem padded_padded (l : CustomListing ν) (target target' : Nat) :
    (l.padded target).padded target' = l.padded (max target target') := by
  cases ended : l.hasEnded with
  | false => rw [padded_of_not_hasEnded ended, padded_of_not_hasEnded ended,
      padded_of_not_hasEnded ended]
  | true =>
    cases declared : l.size with
    | none => simp [padded, declared]
    | some size =>
      rw [padded_eq declared ended target, padded_eq declared ended (max target target')]
      by_cases first : min target size ≤ l.shown.size
      · rw [if_pos first, padded_eq declared ended]
        by_cases second : min target' size ≤ l.shown.size
        · rw [if_pos second, if_pos (by omega)]
        · rw [if_neg second, if_neg (by omega)]
          have same : min (max target target') size = min target' size := by omega
          rw [same]
      · -- the row of the second part is the one of the first
        let row := l.shortfallRow size
        let part : CustomListing ν :=
          { l with
            shown := l.shown ++ Array.replicate (min target size - l.shown.size) row
            shortfall := some row }
        have many : part.shown.size = min target size := by
          simp only [part, Array.size_append, Array.size_replicate]
          omega
        rw [if_neg first, if_neg (by omega)]
        refine (padded_eq (l := part) declared ended target').trans ?_
        rw [many]
        by_cases second : min target' size ≤ min target size
        · have same : min (max target target') size = min target size := by omega
          rw [if_pos second, same]
        · have more : min (max target target') size - l.shown.size =
              (min target size - l.shown.size) + (min target' size - min target size) := by omega
          rw [if_neg second, more, ← Array.replicate_append_replicate, ← Array.append_assoc]
          rfl

/-! ## Runs for targets -/

/-- `RunsTo ev target p q`: asked for so many rows, the list goes on from `p`
to `q`. -/
def RunsTo (ev : Evaluator σ ν) (target : Nat) (p q : CustomListing ν × σ) : Prop :=
  Bounded.Ends (fun bound => runTo ev bound target p.1) p.2 q

/-- Asked for rows again and again. -/
def RunsThrough (ev : Evaluator σ ν) :
    List Nat → CustomListing ν × σ → CustomListing ν × σ → Prop
  | [], p, q => q = p
  | target :: targets, p, q => ∃ m, RunsTo ev target p m ∧ RunsThrough ev targets m q

/-- A list that does not run again: an evaluation failed, or it could not be
counted. -/
def IsFrozen (l : CustomListing ν) : Prop := (l.failed || !l.standing.isSound) = true

theorem runsTo_of_isFrozen {ev : Evaluator σ ν} {target : Nat} {p q : CustomListing ν × σ}
    (frozen : p.1.IsFrozen) : RunsTo ev target p q ↔ q = p := by
  unfold IsFrozen at frozen
  have h (bound : Nat) : runTo ev bound target p.1 p.2 = .ok p := by
    rw [runTo, if_pos frozen]
    rfl
  constructor
  · rintro ⟨bound, hq⟩
    exact (Except.ok.inj ((h bound).symm.trans hq)).symm
  · rintro rfl
    exact ⟨0, h 0⟩

theorem runsTo_of_not_isFrozen {ev : Evaluator σ ν} {target : Nat} {p q : CustomListing ν × σ}
    (live : ¬ p.1.IsFrozen) :
    RunsTo ev target p q ↔ ∃ m, RunsOn ev target p m ∧ q = (m.1.padded target, m.2) := by
  unfold IsFrozen at live
  have h (bound : Nat) : runTo ev bound target p.1 p.2 =
      (runOn ev target bound p.1 p.2).map fun m => (m.1.padded target, m.2) := by
    rw [runTo, if_neg live]
    simp only [bind, StateT.bind]
    cases runOn ev target bound p.1 p.2 <;> rfl
  constructor
  · rintro ⟨bound, hq⟩
    obtain ⟨m, hm, rfl⟩ := Bounded.map_eq_ok_iff.mp ((h bound).symm.trans hq)
    exact ⟨m, (runsOn_iff ev target p m).mpr ⟨bound, hm⟩, rfl⟩
  · rintro ⟨m, hm, rfl⟩
    obtain ⟨bound, hm⟩ := (runsOn_iff ev target p m).mp hm
    exact ⟨bound, (h bound).trans (by rw [hm]; rfl)⟩

theorem isFrozen_iff {l : CustomListing ν} :
    l.IsFrozen ↔ l.failed = true ∨ l.standing.isSound = false := by
  simp [IsFrozen]

/-- A list whose program has ended, failed or not begun. -/
def HasStopped (l : CustomListing ν) : Prop :=
  ∀ run, l.run = some run → run.program.isFinished = true ∨ l.failed = true

theorem HasStopped.halts {l : CustomListing ν} (h : l.HasStopped) (target : Nat) :
    l.Halts target := fun run hr => .inr (h run hr)

theorem HasStopped.padded {l : CustomListing ν} (h : l.HasStopped) (target : Nat) :
    (l.padded target).HasStopped := by
  unfold HasStopped
  rw [run_padded, failed_padded]
  exact h

/-- A list that halts has stopped for good, or else it has the rows and goes on
when more are asked for. -/
theorem Halts.hasStopped_or {target : Nat} {l : CustomListing ν} (h : l.Halts target) :
    l.HasStopped ∨ target ≤ l.shown.size ∧ l.hasEnded = false ∧ l.failed = false := by
  cases hr : l.run with
  | none =>
    refine .inl fun run hr' => ?_
    rw [hr] at hr'
    cases hr'
  | some run =>
    by_cases ended : run.program.isFinished = true ∨ l.failed = true
    · refine .inl fun run' hr' => ?_
      rw [hr] at hr'
      cases hr'
      exact ended
    · obtain ⟨going, sound⟩ := not_or.mp ended
      refine .inr ⟨(h run hr).resolve_right ended, ?_, by simpa using sound⟩
      simp [hasEnded, hr, going]

theorem RunsOn.eq_of_halts {ev : Evaluator σ ν} {target : Nat} {p q : CustomListing ν × σ}
    (run : RunsOn ev target p q) (halts : p.1.Halts target) : q = p :=
  (RunsOn.halted halts).unique run

/-- A list that has stopped only gets rows for missing items. -/
theorem runsTo_of_hasStopped {ev : Evaluator σ ν} {target : Nat} {p q : CustomListing ν × σ}
    (stopped : p.1.HasStopped) (sound : p.1.standing.isSound = true) :
    RunsTo ev target p q ↔ q = (p.1.padded target, p.2) := by
  by_cases frozen : p.1.IsFrozen
  · have failed : p.1.failed = true := by
      rcases isFrozen_iff.mp frozen with failed | unsound
      · exact failed
      · rw [sound] at unsound
        cases unsound
    rw [runsTo_of_isFrozen frozen, padded_of_not_hasEnded (by simp [hasEnded, failed])]
  · rw [runsTo_of_not_isFrozen frozen]
    constructor
    · rintro ⟨m, run, rfl⟩
      rw [run.eq_of_halts (stopped.halts target)]
    · rintro rfl
      exact ⟨p, .halted (stopped.halts target), rfl⟩

/-- **Two runs are one run for the larger target.** -/
theorem runsTo_runsTo_iff {ev : Evaluator σ ν} {target target' : Nat}
    {p q : CustomListing ν × σ} :
    (∃ m, RunsTo ev target p m ∧ RunsTo ev target' m q) ↔ RunsTo ev (max target target') p q := by
  by_cases frozen : p.1.IsFrozen
  · rw [runsTo_of_isFrozen frozen]
    constructor
    · rintro ⟨m, first, second⟩
      rw [(runsTo_of_isFrozen frozen).mp first] at second
      exact (runsTo_of_isFrozen frozen).mp second
    · rintro rfl
      exact ⟨q, (runsTo_of_isFrozen frozen).mpr rfl, (runsTo_of_isFrozen frozen).mpr rfl⟩
  · have sound : p.1.standing.isSound = true := by
      have h := mt isFrozen_iff.mpr frozen
      simpa using (not_or.mp h).2
    -- the second run, from where the program stopped in the first
    have second {m : CustomListing ν × σ} (first : RunsOn ev target p m) :
        RunsTo ev target' (m.1.padded target, m.2) q ↔
          ∃ m', RunsOn ev (max target target') m m' ∧
            q = (m'.1.padded (max target target'), m'.2) := by
      have sound' : m.1.standing.isSound = true := by rw [first.extended.standing, sound]
      rcases first.halts.hasStopped_or with stopped | ⟨enough, going, unfailed⟩
      · have padded_sound : (m.1.padded target).standing.isSound = true := by
          rw [(extends_padded m.1 target).standing, sound']
        rw [runsTo_of_hasStopped (stopped.padded target) padded_sound, padded_padded]
        constructor
        · rintro rfl
          exact ⟨m, .halted (stopped.halts _), rfl⟩
        · rintro ⟨m', run, rfl⟩
          rw [run.eq_of_halts (stopped.halts _)]
      · have live : ¬ m.1.IsFrozen := by simp [isFrozen_iff, unfailed, sound']
        rw [padded_of_not_hasEnded going, runsTo_of_not_isFrozen live]
        by_cases le : target' ≤ target
        · have same : max target target' = target := by omega
          rw [same]
          constructor
          · rintro ⟨m', run, rfl⟩
            rw [run.eq_of_halts (first.halts.of_le le), padded_of_not_hasEnded going]
            exact ⟨m, .halted first.halts, by rw [padded_of_not_hasEnded going]⟩
          · rintro ⟨m', run, rfl⟩
            rw [run.eq_of_halts first.halts, padded_of_not_hasEnded going]
            refine ⟨m, .halted (first.halts.of_le le), ?_⟩
            rw [padded_of_not_hasEnded going]
        · have same : max target target' = target' := by omega
          rw [same]
    rw [runsTo_of_not_isFrozen frozen]
    constructor
    · rintro ⟨m, first, rest⟩
      obtain ⟨m, start, rfl⟩ := (runsTo_of_not_isFrozen frozen).mp first
      obtain ⟨m', run, rfl⟩ := (second start).mp rest
      exact ⟨m', (runsOn_iff_of_le (Nat.le_max_left _ _)).mpr ⟨m, start, run⟩, rfl⟩
    · rintro ⟨m', run, rfl⟩
      obtain ⟨m, first, run⟩ := (runsOn_iff_of_le (Nat.le_max_left target target')).mp run
      exact ⟨_, (runsTo_of_not_isFrozen frozen).mpr ⟨m, first, rfl⟩,
        (second first).mpr ⟨m', run, rfl⟩⟩

/-- **Any number of runs are one run for the largest target.** -/
theorem runsThrough_cons_iff {ev : Evaluator σ ν} (target : Nat) (targets : List Nat)
    {p q : CustomListing ν × σ} :
    RunsThrough ev (target :: targets) p q ↔ RunsTo ev (targets.foldl max target) p q := by
  induction targets generalizing target p with
  | nil =>
    constructor
    · rintro ⟨m, run, rfl⟩
      exact run
    · exact fun run => ⟨q, run, rfl⟩
  | cons target' targets ih =>
    rw [List.foldl_cons, ← ih]
    constructor
    · rintro ⟨m, first, m', second, rest⟩
      exact ⟨m', runsTo_runsTo_iff.mp ⟨m, first, second⟩, rest⟩
    · rintro ⟨m', both, rest⟩
      obtain ⟨m, first, second⟩ := runsTo_runsTo_iff.mpr both
      exact ⟨m, first, m', second, rest⟩

/-! ## Windows -/

theorem steady_runOn (ev : Evaluator σ ν) (target : Nat) (l : CustomListing ν) :
    Bounded.Steady fun bound => runOn ev target bound l := by
  intro b b' s r le h
  induction b generalizing b' l s with
  | zero => cases h
  | succ b ih =>
    obtain ⟨b', rfl⟩ : ∃ n, b' = n + 1 := ⟨b' - 1, by omega⟩
    have h₁ := runOn_succ ev target b (l, s)
    have h₂ := runOn_succ ev target b' (l, s)
    dsimp only at h₁ h₂ h
    rw [h₁] at h
    dsimp only
    rw [h₂]
    cases hr : l.run with
    | none => simpa only [hr] using h
    | some run =>
      simp only [hr] at h ⊢
      split at h
      · rename_i stops
        rw [if_pos stops, h]
      · rename_i goes
        rw [if_neg goes]
        exact ih _ (by omega) h

theorem steady_runTo (ev : Evaluator σ ν) (target : Nat) (l : CustomListing ν) :
    Bounded.Steady fun bound => runTo ev bound target l := by
  unfold runTo
  split
  · exact Bounded.steady_const _
  · exact (steady_runOn ev target l).bind fun _ => Bounded.steady_const _

theorem steady_count (engine : Engine σ ν) (l : CustomListing ν) :
    Bounded.Steady fun bound => count engine bound l := by
  unfold count
  refine (Bounded.steady_const _).bind fun begun => ?_
  rcases begun with e | l'
  · exact Bounded.steady_const _
  · dsimp only
    cases l'.size with
    | some n => exact Bounded.steady_const _
    | none => exact (steady_runTo _ _ _).ofTarget.bind fun _ => Bounded.steady_const _

theorem steady_settled (engine : Engine σ ν) (l : CustomListing ν) :
    Bounded.Steady fun bound => settled engine bound l := by
  unfold settled
  split
  · exact Bounded.steady_const _
  · refine Bounded.Steady.bind ?_ fun _ => Bounded.steady_const _
    unfold Standing.settle
    refine (Bounded.steady_const _).bind fun applies => ?_
    rcases applies with e | _ | _
    · exact Bounded.steady_const _
    · exact Bounded.steady_const _
    · exact (steady_count engine l).bind fun _ => Bounded.steady_const _

/-- `Shows engine w p rows q`: asked for a window in the state `p`, the list
answers with these rows and leaves `q`. -/
def Shows (engine : Engine σ ν) (w : Nat × Nat) (p : CustomListing ν × Session σ ν)
    (rows : List (Variable ν)) (q : CustomListing ν × Session σ ν) : Prop :=
  Bounded.Ends (fun bound => CustomListing.rows engine bound p.1 w.1 w.2) p.2 ((rows, q.1), q.2)

/-- Asked for windows one after the other, the list gives these answers. -/
inductive ShowsThrough (engine : Engine σ ν) : List (Nat × Nat) →
    CustomListing ν × Session σ ν → List (List (Variable ν)) → CustomListing ν × Session σ ν → Prop
  | nil {p : CustomListing ν × Session σ ν} : ShowsThrough engine [] p [] p
  | cons {w : Nat × Nat} {ws : List (Nat × Nat)} {p m q : CustomListing ν × Session σ ν}
      {rows : List (Variable ν)} {answers : List (List (Variable ν))}
      (first : Shows engine w p rows m) (others : ShowsThrough engine ws m answers q) :
      ShowsThrough engine (w :: ws) p (rows :: answers) q

/-- `Settles engine p m`: the list settles, if it has not. -/
def Settles (engine : Engine σ ν) (p m : CustomListing ν × Session σ ν) : Prop :=
  Bounded.Ends (fun bound => settled engine bound p.1) p.2 ((m.1.standing, m.1), m.2)

/-- `Answers engine w m rows q`: a settled list answers. -/
def Answers (engine : Engine σ ν) (w : Nat × Nat) (m : CustomListing ν × Session σ ν)
    (rows : List (Variable ν)) (q : CustomListing ν × Session σ ν) : Prop :=
  match m.1.standing with
  | .failed row => rows = clip w.1 w.2 [row] ∧ q = m
  | .counted n => ∃ q', RunsTo engine.evaluator (min (windowEnd w.1 w.2) n) (m.1, m.2.target) q' ∧
      rows = (windowOf n w.1 w.2).filterMap (q'.1.shown[·]?) ∧
      q = (q'.1, { m.2 with target := q'.2 })

/-- A list that has settled is up to date. -/
theorem settled_eq {engine : Engine σ ν} {bound : Nat} {l l' : CustomListing ν}
    {s s' : Session σ ν} {standing : Standing ν}
    (h : settled engine bound l s = .ok ((standing, l'), s')) :
    l'.standing = standing ∧ l'.current = true := by
  unfold settled at h
  split at h
  · rename_i current
    cases h
    exact ⟨rfl, current⟩
  · obtain ⟨m, -, h⟩ := Bounded.bind_eq_ok_iff.mp h
    cases h
    exact ⟨rfl, rfl⟩

/-- The rows of a list that has settled. -/
def rowsOf (engine : Engine σ ν) (w : Nat × Nat) (bound : Nat) (m : Standing ν × CustomListing ν) :
    Search σ ν (List (Variable ν) × CustomListing ν) :=
  match m.1 with
  | .failed row => pure (clip w.1 w.2 [row], m.2)
  | .counted n => do
    let l ← Search.ofTarget (m.2.runTo engine.evaluator bound (min (windowEnd w.1 w.2) n))
    return ((windowOf n w.1 w.2).filterMap (l.shown[·]?), l)

theorem rows_eq (engine : Engine σ ν) (bound : Nat) (l : CustomListing ν) (w : Nat × Nat) :
    CustomListing.rows engine bound l w.1 w.2 =
      settled engine bound l >>= rowsOf engine w bound := rfl

theorem steady_rowsOf (engine : Engine σ ν) (w : Nat × Nat) (m : Standing ν × CustomListing ν) :
    Bounded.Steady fun bound => rowsOf engine w bound m := by
  unfold rowsOf
  split
  · exact Bounded.steady_const _
  · exact (steady_runTo _ _ _).ofTarget.bind fun _ => Bounded.steady_const _

theorem ends_rowsOf_iff {engine : Engine σ ν} {w : Nat × Nat} {m q : CustomListing ν × Session σ ν}
    {rows : List (Variable ν)} :
    Bounded.Ends (fun bound => rowsOf engine w bound (m.1.standing, m.1)) m.2
      ((rows, q.1), q.2) ↔ Answers engine w m rows q := by
  obtain ⟨l, s⟩ := m
  obtain ⟨l', s'⟩ := q
  unfold rowsOf Answers
  dsimp only
  cases l.standing with
  | failed row =>
    dsimp only
    rw [Bounded.ends_pure_iff]
    constructor
    · rintro ⟨⟩
      exact ⟨rfl, rfl⟩
    · rintro ⟨rfl, hq⟩
      cases hq
      rfl
  | counted n =>
    dsimp only
    refine (Bounded.ends_bind_iff (steady_runTo _ _ _).ofTarget
      fun l => Bounded.steady_const (pure (_, l))).trans ?_
    constructor
    · rintro ⟨m', run, rest⟩
      obtain ⟨t, run, hs⟩ := Bounded.ends_ofTarget_iff.mp run
      cases Bounded.ends_pure_iff.mp rest
      exact ⟨(m'.1, t), run, rfl, Prod.ext rfl hs⟩
    · rintro ⟨q', run, rfl, hq⟩
      cases hq
      exact ⟨(q'.1, _), Bounded.ends_ofTarget_iff.mpr ⟨q'.2, run, rfl⟩,
        Bounded.ends_pure_iff.mpr rfl⟩

/-- A list settles and answers. -/
theorem shows_iff {engine : Engine σ ν} {w : Nat × Nat} {p q : CustomListing ν × Session σ ν}
    {rows : List (Variable ν)} :
    Shows engine w p rows q ↔ ∃ m, Settles engine p m ∧ Answers engine w m rows q := by
  unfold Shows
  simp only [rows_eq]
  rw [Bounded.ends_bind_iff (steady_settled engine p.1) (steady_rowsOf engine w)]
  constructor
  · rintro ⟨⟨⟨standing, l⟩, s⟩, hm, answers⟩
    obtain ⟨b, hb⟩ := hm
    obtain ⟨rfl, -⟩ := settled_eq hb
    exact ⟨(l, s), ⟨b, hb⟩, ends_rowsOf_iff.mp answers⟩
  · rintro ⟨m, hm, answers⟩
    exact ⟨_, hm, ends_rowsOf_iff.mpr answers⟩

/-- A list that will never have more rows than it has. -/
structure IsSpent (l : CustomListing ν) : Prop where
  stopped : l.HasStopped
  padded : ∀ target, l.padded target = l

theorem IsSpent.runsTo {ev : Evaluator σ ν} {target : Nat} {p q : CustomListing ν × σ}
    (spent : p.1.IsSpent) (run : RunsTo ev target p q) : q = p := by
  by_cases frozen : p.1.IsFrozen
  · exact (runsTo_of_isFrozen frozen).mp run
  · have sound := (not_or.mp (mt isFrozen_iff.mpr frozen)).2
    rw [(runsTo_of_hasStopped spent.stopped (by simpa using sound)).mp run, spent.padded]

/-- After a program ran, the list has the rows or will never have more. -/
theorem RunsOn.enough_or {ev : Evaluator σ ν} {target : Nat} {p m : CustomListing ν × σ}
    (run : RunsOn ev target p m) :
    target ≤ (m.1.padded target).shown.size ∨ (m.1.padded target).IsSpent := by
  -- the run halts because it has enough, or for good; then padding again adds nothing
  rcases run.halts.hasStopped_or with stopped | ⟨enough, going, -⟩
  · have stopped' := stopped.padded target
    cases ended : m.1.hasEnded with
    | false =>
      refine .inr ⟨stopped', fun target' => ?_⟩
      rw [padded_padded, padded_of_not_hasEnded ended, padded_of_not_hasEnded ended]
    | true =>
      cases declared : m.1.size with
      | none =>
        refine .inr ⟨stopped', fun target' => ?_⟩
        rw [padded_padded]
        simp [CustomListing.padded, declared]
      | some size =>
        have least : min target size ≤ (m.1.padded target).shown.size := by
          rw [padded_eq declared ended]
          split
          · assumption
          · simp only [Array.size_append, Array.size_replicate]
            omega
        by_cases small : target ≤ size
        · exact .inl (by omega)
        · refine .inr ⟨stopped', fun target' => ?_⟩
          have declared' := (extends_padded m.1 target).size.trans declared
          have ended' : (m.1.padded target).hasEnded = true := by simpa [hasEnded] using ended
          rw [padded_eq declared' ended', if_pos (by omega)]
  · rw [padded_of_not_hasEnded going]
    exact .inl enough

/-- After a run, the list has the rows or does not change any more. -/
theorem RunsTo.enough_or {ev : Evaluator σ ν} {target : Nat} {p a : CustomListing ν × σ}
    (run : RunsTo ev target p a) :
    target ≤ a.1.shown.size ∨ ∀ target' b, RunsTo ev target' a b → b = a := by
  by_cases frozen : p.1.IsFrozen
  · obtain rfl := (runsTo_of_isFrozen frozen).mp run
    exact .inr fun _ _ => (runsTo_of_isFrozen frozen).mp
  · obtain ⟨m, first, rfl⟩ := (runsTo_of_not_isFrozen frozen).mp run
    exact first.enough_or.imp_right fun spent _ _ => spent.runsTo

theorem RunsTo.extended {ev : Evaluator σ ν} {target : Nat} {p q : CustomListing ν × σ}
    (run : RunsTo ev target p q) : p.1.Extends q.1 := by
  by_cases frozen : p.1.IsFrozen
  · rw [(runsTo_of_isFrozen frozen).mp run]
    exact .refl _
  · obtain ⟨m, first, rfl⟩ := (runsTo_of_not_isFrozen frozen).mp run
    exact first.extended.trans (extends_padded _ _)

/-- Rows that were asked for stay as they are. -/
theorem RunsTo.take_eq {ev : Evaluator σ ν} {target target' : Nat} {p a b : CustomListing ν × σ}
    (first : RunsTo ev target p a) (second : RunsTo ev target' a b) :
    a.1.shown.toList.take target = b.1.shown.toList.take target := by
  rcases first.enough_or with enough | stuck
  · obtain ⟨more, h⟩ := second.extended.shown
    rw [← h, List.take_append_of_le_length (by simpa using enough)]
  · rw [stuck target' b second]

/-- Rows of a settled list are clipped from what it has. -/
theorem filterMap_shown (n : Nat) (w : Nat × Nat) (l : CustomListing ν) :
    (windowOf n w.1 w.2).filterMap (l.shown[·]?) = clip w.1 w.2 (l.shown.toList.take n) := by
  rw [← filterMap_windowOf]
  simp

theorem settled_of_current (engine : Engine σ ν) (bound : Nat) {l : CustomListing ν}
    (current : l.current = true) (s : Session σ ν) :
    settled engine bound l s = .ok ((l.standing, l), s) := by
  unfold settled
  rw [if_pos current]
  rfl

theorem Settles.eq {engine : Engine σ ν} {p m : CustomListing ν × Session σ ν}
    (current : p.1.current = true) (h : Settles engine p m) : m = p := by
  obtain ⟨l, s⟩ := m
  obtain ⟨l₀, s₀⟩ := p
  obtain ⟨b, h⟩ := h
  have h := Except.ok.inj ((settled_of_current engine b current s₀).symm.trans h)
  obtain rfl : l₀ = l := congrArg (·.1.2) h
  obtain rfl : s₀ = s := congrArg (·.2) h
  rfl

theorem settles_self (engine : Engine σ ν) {p : CustomListing ν × Session σ ν}
    (current : p.1.current = true) : Settles engine p p :=
  ⟨0, settled_of_current engine 0 current p.2⟩

theorem Answers.current {engine : Engine σ ν} {w : Nat × Nat}
    {m q : CustomListing ν × Session σ ν} {rows : List (Variable ν)}
    (h : Answers engine w m rows q) :
    q.1.current = m.1.current ∧ q.1.standing = m.1.standing := by
  unfold Answers at h
  split at h
  · obtain ⟨-, rfl⟩ := h
    exact ⟨rfl, rfl⟩
  · obtain ⟨q', run, -, rfl⟩ := h
    exact ⟨run.extended.current, run.extended.standing⟩

theorem answers_of_failed {engine : Engine σ ν} {w : Nat × Nat}
    {m q : CustomListing ν × Session σ ν} {rows : List (Variable ν)} {row : Variable ν}
    (hs : m.1.standing = .failed row) :
    Answers engine w m rows q ↔ rows = clip w.1 w.2 [row] ∧ q = m := by
  unfold Answers
  rw [hs]

theorem answers_of_counted {engine : Engine σ ν} {w : Nat × Nat}
    {m q : CustomListing ν × Session σ ν} {rows : List (Variable ν)} {n : Nat}
    (hs : m.1.standing = .counted n) :
    Answers engine w m rows q ↔
      ∃ q', RunsTo engine.evaluator (min (windowEnd w.1 w.2) n) (m.1, m.2.target) q' ∧
        rows = clip w.1 w.2 (q'.1.shown.toList.take n) ∧
        q = (q'.1, { m.2 with target := q'.2 }) := by
  unfold Answers
  rw [hs]
  simp only [filterMap_shown]

theorem max_windowEnd_lt (w w' : Nat × Nat) :
    max (windowEnd w.1 w.2) (windowEnd w'.1 w'.2) < wordCount :=
  Nat.max_lt.mpr ⟨windowEnd_lt _ _, windowEnd_lt _ _⟩

/-- **Two windows of a settled list are clipped from one answer.** -/
theorem answers_answers_iff {engine : Engine σ ν} {w w' : Nat × Nat}
    {m q : CustomListing ν × Session σ ν} {rows rows' : List (Variable ν)} :
    (∃ m', Answers engine w m rows m' ∧ Answers engine w' m' rows' q) ↔
      ∃ all, Answers engine (0, max (windowEnd w.1 w.2) (windowEnd w'.1 w'.2)) m all q ∧
        rows = clip w.1 w.2 all ∧ rows' = clip w'.1 w'.2 all := by
  have last := max_windowEnd_lt w w'
  have clipped (xs : List (Variable ν)) :
      clip w.1 w.2 (clip 0 (max (windowEnd w.1 w.2) (windowEnd w'.1 w'.2)) xs) =
        clip w.1 w.2 xs := clip_clip (Nat.le_max_left _ _) last xs
  have clipped' (xs : List (Variable ν)) :
      clip w'.1 w'.2 (clip 0 (max (windowEnd w.1 w.2) (windowEnd w'.1 w'.2)) xs) =
        clip w'.1 w'.2 xs := clip_clip (Nat.le_max_right _ _) last xs
  -- a failure shows one row whatever is asked; otherwise the two runs are one for the larger target
  cases hs : m.1.standing with
  | failed row =>
    simp only [answers_of_failed hs]
    constructor
    · rintro ⟨m', ⟨rfl, rfl⟩, second⟩
      obtain ⟨rfl, rfl⟩ := (answers_of_failed hs).mp second
      exact ⟨_, ⟨rfl, rfl⟩, (clipped _).symm, (clipped' _).symm⟩
    · rintro ⟨all, ⟨rfl, rfl⟩, rfl, rfl⟩
      rw [clipped, clipped']
      exact ⟨q, ⟨rfl, rfl⟩, (answers_of_failed hs).mpr ⟨rfl, rfl⟩⟩
  | counted n =>
    have least : max (min (windowEnd w.1 w.2) n) (min (windowEnd w'.1 w'.2) n) =
        min (windowEnd 0 (max (windowEnd w.1 w.2) (windowEnd w'.1 w'.2))) n := by
      rw [windowEnd_zero last]
      omega
    simp only [answers_of_counted hs]
    constructor
    · rintro ⟨m', ⟨a, first, rfl, rfl⟩, second⟩
      have hs' : a.1.standing = .counted n := first.extended.standing.trans hs
      obtain ⟨b, run, rfl, rfl⟩ := (answers_of_counted hs').mp second
      have both := runsTo_runsTo_iff.mp ⟨a, first, run⟩
      rw [least] at both
      refine ⟨_, ⟨b, both, rfl, rfl⟩, ?_, (clipped' _).symm⟩
      rw [clipped]
      exact clip_take_congr (first.take_eq run)
    · rintro ⟨all, ⟨b, both, rfl, rfl⟩, rfl, rfl⟩
      rw [← least] at both
      obtain ⟨a, first, second⟩ := runsTo_runsTo_iff.mpr both
      have hs' : a.1.standing = .counted n := first.extended.standing.trans hs
      refine ⟨_, ⟨a, first, ?_, rfl⟩, (answers_of_counted hs').mpr ⟨b, second, ?_, rfl⟩⟩
      · rw [clipped]
        exact (clip_take_congr (first.take_eq second)).symm
      · rw [clipped']

/-- And one window is. -/
theorem answers_iff_clipped {engine : Engine σ ν} {w : Nat × Nat}
    {m q : CustomListing ν × Session σ ν} {rows : List (Variable ν)} :
    Answers engine w m rows q ↔
      ∃ all, Answers engine (0, windowEnd w.1 w.2) m all q ∧ rows = clip w.1 w.2 all := by
  have last := windowEnd_lt w.1 w.2
  have clipped (xs : List (Variable ν)) :
      clip w.1 w.2 (clip 0 (windowEnd w.1 w.2) xs) = clip w.1 w.2 xs :=
    clip_clip (Nat.le_refl _) last xs
  cases hs : m.1.standing with
  | failed row =>
    simp only [answers_of_failed hs]
    constructor
    · rintro ⟨rfl, rfl⟩
      exact ⟨_, ⟨rfl, rfl⟩, (clipped _).symm⟩
    · rintro ⟨all, ⟨rfl, rfl⟩, rfl⟩
      exact ⟨clipped _, rfl⟩
  | counted n =>
    simp only [answers_of_counted hs, windowEnd_zero last]
    constructor
    · rintro ⟨q', run, rfl, rfl⟩
      exact ⟨_, ⟨q', run, rfl, rfl⟩, (clipped _).symm⟩
    · rintro ⟨all, ⟨q', run, rfl, rfl⟩, rfl⟩
      exact ⟨q', run, clipped _, rfl⟩

theorem Settles.current {engine : Engine σ ν} {p m : CustomListing ν × Session σ ν}
    (h : Settles engine p m) : m.1.current = true := by
  obtain ⟨b, h⟩ := h
  exact (settled_eq h).2

/-- **Two windows of a list are clipped from one answer.** -/
theorem shows_shows_iff {engine : Engine σ ν} {w w' : Nat × Nat}
    {p q : CustomListing ν × Session σ ν} {rows rows' : List (Variable ν)} :
    (∃ m, Shows engine w p rows m ∧ Shows engine w' m rows' q) ↔
      ∃ all, Shows engine (0, max (windowEnd w.1 w.2) (windowEnd w'.1 w'.2)) p all q ∧
        rows = clip w.1 w.2 all ∧ rows' = clip w'.1 w'.2 all := by
  simp only [shows_iff]
  constructor
  · rintro ⟨m, ⟨m₀, settles, first⟩, m₁, settles', second⟩
    obtain rfl := settles'.eq (first.current.1.trans settles.current)
    obtain ⟨all, answers, hrows⟩ := answers_answers_iff.mp ⟨m₁, first, second⟩
    exact ⟨all, ⟨m₀, settles, answers⟩, hrows⟩
  · rintro ⟨all, ⟨m₀, settles, answers⟩, hrows⟩
    obtain ⟨m, first, second⟩ := answers_answers_iff.mpr ⟨all, answers, hrows⟩
    have current := first.current.1.trans settles.current
    exact ⟨m, ⟨m₀, settles, first⟩, m, settles_self engine current, second⟩

/-- The end of the last of some windows. -/
def lastEnd (w : Nat × Nat) (ws : List (Nat × Nat)) : Nat :=
  (ws.map fun w => windowEnd w.1 w.2).foldl max (windowEnd w.1 w.2)

theorem shows_iff_clipped {engine : Engine σ ν} {w : Nat × Nat}
    {p q : CustomListing ν × Session σ ν} {rows : List (Variable ν)} :
    Shows engine w p rows q ↔
      ∃ all, Shows engine (0, windowEnd w.1 w.2) p all q ∧ rows = clip w.1 w.2 all := by
  simp only [shows_iff]
  constructor
  · rintro ⟨m, settles, answers⟩
    obtain ⟨all, answers, hrows⟩ := answers_iff_clipped.mp answers
    exact ⟨all, ⟨m, settles, answers⟩, hrows⟩
  · rintro ⟨all, ⟨m, settles, answers⟩, hrows⟩
    exact ⟨m, settles, answers_iff_clipped.mpr ⟨all, answers, hrows⟩⟩

theorem lastEnd_cons (w w' : Nat × Nat) (ws : List (Nat × Nat)) :
    lastEnd w (w' :: ws) = lastEnd (0, max (windowEnd w.1 w.2) (windowEnd w'.1 w'.2)) ws := by
  unfold lastEnd
  rw [List.map_cons, List.foldl_cons, windowEnd_zero (max_windowEnd_lt w w')]

/-- **Any number of windows are clipped from one answer**, the one for all rows
up to the end of the last window. -/
theorem showsThrough_cons_iff {engine : Engine σ ν} (w : Nat × Nat) (ws : List (Nat × Nat))
    {p q : CustomListing ν × Session σ ν} {answers : List (List (Variable ν))} :
    ShowsThrough engine (w :: ws) p answers q ↔
      ∃ all, Shows engine (0, lastEnd w ws) p all q ∧
        answers = (w :: ws).map fun w => clip w.1 w.2 all := by
  -- the first two windows are clipped from one answer, which stands for both as the first of those
  -- that remain
  induction ws generalizing w p answers with
  | nil =>
    constructor
    · rintro (_ | ⟨first, ⟨⟩⟩)
      obtain ⟨all, shows, rfl⟩ := shows_iff_clipped.mp first
      exact ⟨all, shows, rfl⟩
    · rintro ⟨all, shows, rfl⟩
      exact .cons (shows_iff_clipped.mpr ⟨all, shows, rfl⟩) .nil
  | cons w' ws ih =>
    have last := max_windowEnd_lt w w'
    have clipped (xs : List (Variable ν)) := clip_clip
      (Nat.le_max_left (windowEnd w.1 w.2) (windowEnd w'.1 w'.2)) last xs
    have clipped' (xs : List (Variable ν)) := clip_clip
      (Nat.le_max_right (windowEnd w.1 w.2) (windowEnd w'.1 w'.2)) last xs
    rw [lastEnd_cons]
    constructor
    · rintro (_ | ⟨first, _ | ⟨second, others⟩⟩)
      obtain ⟨both, combined, rfl, rfl⟩ := shows_shows_iff.mp ⟨_, first, second⟩
      obtain ⟨all, shows, answers⟩ := (ih _).mp (.cons combined others)
      obtain ⟨rfl, rfl⟩ := List.cons.inj answers
      refine ⟨all, shows, ?_⟩
      rw [clipped, clipped']
      rfl
    · rintro ⟨all, shows, rfl⟩
      have through := (ih _).mpr ⟨all, shows, rfl⟩
      cases through with
      | cons both others =>
        obtain ⟨m, first, second⟩ := shows_shows_iff.mpr ⟨_, both, rfl, rfl⟩
        rw [clipped] at first
        rw [clipped'] at second
        exact .cons first (.cons second others)

/-- **Paging changes nothing.** Asked for targets in any order, a list ends as
if it was asked for the largest alone: with the same rows, the same program,
failure and padding, and the same state of the debugger, with all the debugger
may keep in it of what it was asked. And all its windows are clipped from
the one answer up to the last of their ends. -/
theorem paging_iff_at_once (engine : Engine σ ν) :
    (∀ (target : Nat) (targets : List Nat) (p q : CustomListing ν × σ),
      RunsThrough engine.evaluator (target :: targets) p q ↔
        RunsTo engine.evaluator (targets.foldl max target) p q) ∧
    ∀ (w : Nat × Nat) (ws : List (Nat × Nat)) (p q : CustomListing ν × Session σ ν)
      (answers : List (List (Variable ν))),
      ShowsThrough engine (w :: ws) p answers q ↔
        ∃ all, Shows engine (0, lastEnd w ws) p all q ∧
          answers = (w :: ws).map fun w => clip w.1 w.2 all :=
  ⟨fun target targets _ _ => runsThrough_cons_iff target targets,
    fun w ws _ _ _ => showsThrough_cons_iff w ws⟩

end WatchView.CustomListing
