import WatchView.Proofs.Program.Rest
/-!
# One step of a program

A step of a sequence is one of its first block, and so on down to a single
act: what is to be shown of all steps is shown along this way
(`Block.step_induction`). A step never changes what a sequence is when it is
made ready again, so that a loop has the body of its first pass in every pass.
-/

namespace WatchView

variable {σ ε ι : Type} {host : Host (StateT Nat (StateM σ)) ε ι}

/-! ## Making ready undoes a step -/

theorem Block.resetAll_eq_map (bs : List Block) : Block.resetAll bs = bs.map Block.reset := by
  induction bs with
  | nil => rfl
  | cons b bs ih => simp only [Block.resetAll, ih, List.map_cons]

theorem Branch.resetAll_eq_map (bs : List Branch) :
    Branch.resetAll bs = bs.map fun b => ⟨b.condition, b.body.reset⟩ := by
  induction bs with
  | nil => rfl
  | cons b bs ih =>
    cases b
    simp only [Branch.resetAll, ih, List.map_cons]

theorem Sequence.reset_eq (s : Sequence) : s.reset = .ofBlocks (s.blocks.map Block.reset) := by
  cases s
  simp [Sequence.reset, Sequence.ofBlocks, Sequence.blocks, Block.resetAll_eq_map]

/-- A sequence after a step has the blocks it had, the first one as it is
now. -/
theorem Sequence.blocks_advance (behind ahead : List Block) (b : Block)
    (r : Except ε (Step ι)) :
    (Sequence.advance behind b ahead r).blocks = behind.reverse ++ b :: ahead := by
  unfold Sequence.advance
  split
  · rfl
  · split
    · simp [Sequence.blocks]
    · rfl
  · rfl

/-- One step of the branch at an index steps its body. -/
theorem Branch.outcome_stepAt {i : Nat} {branches : List Branch} {b : Branch}
    (h : branches[i]? = some b) (p : Nat × σ) :
    outcome (Branch.stepAt host i branches) p =
      (((outcome (b.body.step host) p).1.1,
        branches.set i ⟨b.condition, (outcome (b.body.step host) p).1.2⟩),
        (outcome (b.body.step host) p).2) := by
  induction branches generalizing i with
  | nil => simp at h
  | cons b' bs ih =>
    cases i with
    | zero =>
      obtain rfl : b' = b := by simpa using h
      cases b'
      simp [Branch.stepAt]
    | succ i =>
      have hi : bs[i]? = some b := by simpa using h
      simp only [Branch.stepAt, outcome_bind, ih hi, outcome_pure, List.set_cons_succ]

theorem Branch.outcome_stepAt_of_none {i : Nat} {branches : List Branch}
    (h : branches[i]? = none) (p : Nat × σ) :
    outcome (Branch.stepAt host i branches) p = ((.ok .nothing, branches), p) := by
  induction branches generalizing i with
  | nil => simp [Branch.stepAt]
  | cons b' bs ih =>
    cases i with
    | zero => simp at h
    | succ i =>
      have hi : bs[i]? = none := by simpa using h
      simp only [Branch.stepAt, outcome_bind, ih hi, outcome_pure]

/-- The step of a block that acts at once: it ends with its act. -/
theorem Block.outcome_step_act {b : Block} {c : Option String}
    {act : StateT Nat (StateM σ) (Except ε (Step ι))} (hb : b.isFinished = false)
    (h : b.act? host = some (c, act)) (p : Nat × σ) :
    ∃ b', b'.isFinished = true ∧ b'.reset = b.reset ∧
      outcome (b.step host) p =
        (((outcome (host.guarded c act) p).1, b'), (outcome (host.guarded c act) p).2) := by
  have hs : ¬ b.stage = .finished := by
    intro hs
    simp [Block.isFinished, hs] at hb
  cases b with
  | item stage condition name value =>
    simp only [Block.act?, Option.some.injEq, Prod.mk.injEq] at h
    obtain ⟨rfl, rfl⟩ := h
    refine ⟨.item .finished condition name value, rfl, rfl, ?_⟩
    simp only [Block.stage] at hs
    rw [Block.step, if_neg hs]
    rfl
  | exec stage condition value =>
    simp only [Block.act?, Option.some.injEq, Prod.mk.injEq] at h
    obtain ⟨rfl, rfl⟩ := h
    refine ⟨.exec .finished condition value, rfl, rfl, ?_⟩
    simp only [Block.stage] at hs
    rw [Block.step, if_neg hs]
    rfl
  | leave stage condition =>
    simp only [Block.act?, Option.some.injEq, Prod.mk.injEq] at h
    obtain ⟨rfl, rfl⟩ := h
    refine ⟨.leave .finished condition, rfl, rfl, ?_⟩
    simp only [Block.stage] at hs
    rw [Block.step, if_neg hs]
    rfl
  | loop => simp [Block.act?] at h
  | choice => simp [Block.act?] at h

/-- Whether a pass of a loop goes on: its condition is asked only before a
body that was not begun. -/
def Block.asksPass (host : Host (StateT Nat (StateM σ)) ε ι) (c : Option String)
    (body : Sequence) : StateT Nat (StateM σ) (Except ε Bool) :=
  if body.stage = .fresh then host.holds c else pure (.ok true)

/-- A loop that goes on steps its body, which it first makes ready if a pass
has ended, unless its condition ends it. -/
theorem Block.step_loop {stage : Stage} (hs : stage ≠ .finished) (c : Option String)
    (body : Sequence) :
    (Block.loop stage c body).step host = (do
      match ← asksPass host c body.rearmed with
      | .error e => pure (.error e, .loop .running c body.rearmed)
      | .ok false => pure (.ok .nothing, .loop .finished c body.rearmed)
      | .ok true =>
        let (r, body') ← body.rearmed.step host
        pure (Block.afterPass c body' r)) := by
  rw [Block.step, if_neg hs, asksPass]
  dsimp only
  split <;> rfl

/-- The choice of a branch, made once. -/
def Block.asksChoice (host : Host (StateT Nat (StateM σ)) ε ι) (branches : List Branch)
    (chosen : Option Nat) : StateT Nat (StateM σ) (Except ε (Option Nat)) :=
  match chosen with
  | some index => pure (.ok (some index))
  | none => host.firstHolding (branches.map Branch.condition)

/-- A conditional steps the branch it chose or chooses. -/
theorem Block.step_choice {stage : Stage} (hs : stage ≠ .finished) (branches : List Branch)
    (chosen : Option Nat) :
    (Block.choice stage branches chosen).step host = (do
      match ← asksChoice host branches chosen with
      | .error e => pure (.error e, .choice .running branches none)
      | .ok none => pure (.ok .nothing, .choice .finished branches none)
      | .ok (some i) =>
        let (r, branches') ← Branch.stepAt host i branches
        pure (r, .afterBranch branches' i r)) := by
  rw [Block.step, if_neg hs]
  cases chosen <;> rfl

mutual

/-- What is made ready stays as it is when made ready again. -/
theorem Sequence.reset_reset : ∀ s : Sequence, s.reset.reset = s.reset
  | ⟨behind, ahead, stage⟩ => by
    have h₁ := Block.resetAll_resetAll behind
    have h₂ := Block.resetAll_resetAll ahead
    simp only [Block.resetAll_eq_map] at h₁ h₂
    simp [Sequence.reset, Block.resetAll_eq_map, List.map_reverse, h₁, h₂, -List.map_map]

theorem Block.reset_reset : ∀ b : Block, b.reset.reset = b.reset
  | .item .. => rfl
  | .exec .. => rfl
  | .leave .. => rfl
  | .loop _ c body => by rw [Block.reset, Block.reset, Sequence.reset_reset body]
  | .choice _ branches chosen => by
    rw [Block.reset, Block.reset, Branch.resetAll_resetAll branches]

theorem Block.resetAll_resetAll : ∀ bs : List Block,
    Block.resetAll (Block.resetAll bs) = Block.resetAll bs
  | [] => rfl
  | b :: bs => by
    simp only [Block.resetAll, Block.reset_reset b, Block.resetAll_resetAll bs]

theorem Branch.resetAll_resetAll : ∀ bs : List Branch,
    Branch.resetAll (Branch.resetAll bs) = Branch.resetAll bs
  | [] => rfl
  | ⟨c, body⟩ :: bs => by
    simp only [Branch.resetAll, Sequence.reset_reset body, Branch.resetAll_resetAll bs]

end

theorem Sequence.reset_rearmed (s : Sequence) : s.rearmed.reset = s.reset := by
  unfold rearmed
  split
  · exact s.reset_reset
  · rfl

theorem Block.reset_afterPass (c : Option String) (body : Sequence) (r : Except ε (Step ι)) :
    (Block.afterPass c body r).2.reset = .loop .fresh c body.reset := by
  unfold Block.afterPass
  split <;> rfl

/-! ## Along a step -/

/-- **Induction along a step.** A sequence steps its first block, a loop its body as that
is when made ready, and a conditional the body of a branch. The body of a loop is no part of
the loop any more once it is made ready, but it is no larger. -/
theorem Block.step_induction {P : Sequence → Prop} {Q : Block → Prop}
    (nil : ∀ behind stage, P ⟨behind, [], stage⟩)
    (cons : ∀ behind b ahead stage, Q b → P ⟨behind, b :: ahead, stage⟩)
    (item : ∀ stage condition name value, Q (.item stage condition name value))
    (exec : ∀ stage condition value, Q (.exec stage condition value))
    (leave : ∀ stage condition, Q (.leave stage condition))
    (loop : ∀ stage condition body, P body.rearmed → Q (.loop stage condition body))
    (choice : ∀ stage branches chosen, (∀ b ∈ branches, P b.body) →
      Q (.choice stage branches chosen)) :
    (∀ s, P s) ∧ ∀ b, Q b := by
  have below (n : Nat) :
      (∀ s : Sequence, sizeOf s < n → P s) ∧ ∀ b : Block, sizeOf b < n → Q b := by
    induction n with
    | zero =>
      exact ⟨fun _ h => absurd h (Nat.not_lt_zero _), fun _ h => absurd h (Nat.not_lt_zero _)⟩
    | succ n ih =>
      obtain ⟨sequences, blocks⟩ := ih
      constructor
      · rintro ⟨behind, _ | ⟨b, ahead⟩, stage⟩ small
        · exact nil behind stage
        · refine cons behind b ahead stage (blocks b ?_)
          simp only [Sequence.mk.sizeOf_spec, List.cons.sizeOf_spec] at small
          omega
      · intro b small
        cases b with
        | item => exact item ..
        | exec => exact exec ..
        | leave => exact leave ..
        | loop stage c body =>
          refine loop stage c body (sequences _ ?_)
          have ready := body.sizeOf_rearmed_le
          simp only [Block.loop.sizeOf_spec] at small
          omega
        | choice stage branches chosen =>
          refine choice stage branches chosen fun b mem => sequences _ ?_
          have part := List.sizeOf_lt_of_mem mem
          cases b
          simp only [Block.choice.sizeOf_spec, Branch.mk.sizeOf_spec] at small part ⊢
          omega
  exact ⟨fun s => (below _).1 s (Nat.lt_succ_self _), fun b => (below _).2 b (Nat.lt_succ_self _)⟩

/-- Stepping the branch at an index leaves alone what the branches are when made ready, if
stepping their bodies does. -/
theorem Branch.resetAll_stepAt {branches : List Branch} {p : Nat × σ}
    (inside : ∀ b ∈ branches, (outcome (b.body.step host) p).1.2.reset = b.body.reset) (i : Nat) :
    Branch.resetAll (outcome (Branch.stepAt host i branches) p).1.2 = Branch.resetAll branches := by
  cases here : branches[i]? with
  | none => rw [Branch.outcome_stepAt_of_none here]
  | some b =>
    rw [Branch.outcome_stepAt here, Branch.resetAll_eq_map, Branch.resetAll_eq_map, List.map_set,
      inside b (List.mem_of_getElem? here)]
    obtain ⟨hi, rfl⟩ := List.getElem?_eq_some_iff.mp here
    exact List.map_set.symm.trans (congrArg (List.map _) (List.set_getElem_self hi))

/-- Stepping a sequence or a block leaves alone what it is when made ready. -/
theorem Block.resets_step :
    (∀ (s : Sequence) (p : Nat × σ), (outcome (s.step host) p).1.2.reset = s.reset) ∧
    ∀ (b : Block) (p : Nat × σ), (outcome (b.step host) p).1.2.reset = b.reset := by
  refine Block.step_induction ?nil ?cons ?item ?exec ?leave ?loop ?choice
  case nil =>
    intro behind stage p
    simp [Sequence.step, Sequence.reset]
  case cons =>
    intro behind b ahead stage ih p
    simp only [Sequence.step, outcome_bind, outcome_pure]
    rw [Sequence.reset_eq, Sequence.blocks_advance, Sequence.reset_eq]
    simp [Sequence.blocks, ih]
  case item =>
    intro stage condition name value p
    simp only [Block.step]
    split <;> simp [Block.reset]
  case exec =>
    intro stage condition value p
    simp only [Block.step]
    split <;> simp [Block.reset]
  case leave =>
    intro stage condition p
    simp only [Block.step]
    split <;> simp [Block.reset]
  case loop =>
    intro stage c body ih p
    by_cases hs : stage = .finished
    · simp [Block.step, hs, Block.reset]
    · rw [Block.step_loop hs, outcome_bind, Block.reset, ← body.reset_rearmed]
      rcases outcome (Block.asksPass host c body.rearmed) p with ⟨_ | _ | _, q⟩
      · rfl
      · rfl
      · simp only [outcome_bind, outcome_pure, Block.reset_afterPass, ih q]
  case choice =>
    intro stage branches chosen ih p
    by_cases hs : stage = .finished
    · simp [Block.step, hs, Block.reset]
    · rw [Block.step_choice hs, outcome_bind]
      rcases outcome (Block.asksChoice host branches chosen) p with ⟨_ | _ | i, q⟩
      · rfl
      · rfl
      · have same := Branch.resetAll_stepAt (p := q) (fun b mem => ih b mem q) i
        simp only [outcome_bind, outcome_pure, Block.afterBranch, Block.reset, same]

theorem Sequence.reset_step (s : Sequence) (p : Nat × σ) :
    (outcome (s.step host) p).1.2.reset = s.reset :=
  Block.resets_step.1 s p

end WatchView
