import WatchView.Proofs.Program.Compiled
/-!
# Making ready for another pass

However far a program has come, and whatever its steps came to, it has the blocks it was
compiled with, in the same places, and `reset` makes of it, and of every body and block
in it, what compiling made. A place says by which block and which of its bodies to go
inside (`Sequence.body?`), so that what is said of every place is said at every depth.

A sequence is also run in order: the blocks in front of its position are finished, and
none behind it was touched (`Sequence.InOrder`). A step leaves every sequence inside in
order, one that ends in a `leave` or fails as well (`Sequence.inOrder_step`).
-/

namespace WatchView

variable {σ ε ι : Type} {host : Host (StateT Nat (StateM σ)) ε ι}

/-! ## Places -/

namespace Block

/-- The bodies of a block. -/
def bodies : Block → List Sequence
  | loop _ _ body => [body]
  | choice _ branches _ => branches.map Branch.body
  | _ => []

/-- The branch that a conditional has chosen. -/
def chosen? : Block → Option Nat
  | choice _ _ chosen => chosen
  | _ => none

theorem bodies_reset (b : Block) : b.reset.bodies = b.bodies.map Sequence.reset := by
  cases b with
  | choice stage branches chosen =>
    simp only [reset, bodies, Branch.resetAll_eq_map, List.map_map, Function.comp_def]
  | _ => rfl

theorem isFresh_reset (b : Block) : b.reset.stage = .fresh ∧ b.reset.chosen? = none := by
  cases b <;> exact ⟨rfl, rfl⟩

end Block

namespace Sequence

/-- The sequence at a place: itself, or what is at a place in one of the bodies of one
of its blocks. -/
def body? : List (Nat × Nat) → Sequence → Option Sequence
  | [], s => some s
  | (i, j) :: place, s =>
    (s.blocks[i]?).bind fun b => (b.bodies[j]?).bind fun body => body? place body

theorem blocks_reset (s : Sequence) : s.reset.blocks = s.blocks.map Block.reset := by
  rw [reset_eq]
  rfl

theorem body?_append (place place' : List (Nat × Nat)) (s : Sequence) :
    s.body? (place ++ place') = (s.body? place).bind fun t => t.body? place' := by
  induction place generalizing s with
  | nil => rfl
  | cons inner place ih => simp only [List.cons_append, body?, Option.bind_assoc, ih]

/-- To make a sequence ready makes every body inside ready. -/
theorem body?_reset (place : List (Nat × Nat)) (s : Sequence) :
    s.reset.body? place = (s.body? place).map reset := by
  induction place generalizing s with
  | nil => rfl
  | cons inner place ih =>
    obtain ⟨i, j⟩ := inner
    simp only [body?, blocks_reset, List.getElem?_map]
    cases s.blocks[i]? with
    | none => rfl
    | some b =>
      simp only [Option.map_some, Option.bind_some, Block.bodies_reset, List.getElem?_map]
      cases b.bodies[j]? with
      | none => rfl
      | some body => exact ih body

/-- A sequence at its start: it stands at its first block, and none of its blocks was
begun. -/
structure IsFresh (s : Sequence) : Prop where
  position : s.behind = []
  stage : s.stage = .fresh
  blocks : ∀ b ∈ s.blocks, b.stage = .fresh ∧ b.chosen? = none

theorem isFresh_reset (s : Sequence) : s.reset.IsFresh where
  position := by
    rw [reset_eq]
    rfl
  stage := by
    rw [reset_eq]
    rfl
  blocks := by
    intro b hb
    rw [blocks_reset] at hb
    obtain ⟨c, -, rfl⟩ := List.mem_map.mp hb
    exact c.isFresh_reset

end Sequence

/-! ## Running in order -/

namespace Sequence

/-- The blocks in front of the position are finished, and those behind the block it is
at are as they are made ready. -/
structure InOrder (s : Sequence) : Prop where
  behind : ∀ b ∈ s.behind, b.stage = .finished
  ahead : ∀ b ∈ s.ahead.tail, b.reset = b

theorem inOrder_reset (s : Sequence) : s.reset.InOrder := by
  rw [reset_eq]
  refine ⟨fun b hb => absurd hb List.not_mem_nil, fun b hb => ?_⟩
  obtain ⟨c, -, rfl⟩ := List.mem_map.mp (List.mem_of_mem_tail hb)
  exact c.reset_reset

/-- The step of a block leaves the other blocks alone, and the position passes it only
when it is finished. -/
theorem InOrder.advance {behind ahead : List Block} {b : Block} {stage : Stage}
    (h : InOrder ⟨behind, b :: ahead, stage⟩) (now : Block) (r : Except ε (Step ι)) :
    (Sequence.advance behind now ahead r).InOrder := by
  have stays (stage : Stage) : InOrder ⟨behind, now :: ahead, stage⟩ := ⟨h.behind, h.ahead⟩
  unfold Sequence.advance
  split
  · exact stays .finished
  · split
    · rename_i finished
      refine ⟨fun c hc => ?_, fun c hc => h.ahead c (List.mem_of_mem_tail hc)⟩
      rcases List.mem_cons.mp hc with rfl | hc
      · exact finished
      · exact h.behind c hc
    · exact stays .running
  · exact stays .running

/-- A property of a sequence and of every body inside it. -/
def Throughout (P : Sequence → Prop) (s : Sequence) : Prop :=
  ∀ place t, s.body? place = some t → P t

end Sequence

/-- A property of every body inside a block. -/
def Block.Throughout (P : Sequence → Prop) (b : Block) : Prop :=
  ∀ body ∈ b.bodies, body.Throughout P

theorem Sequence.throughout_iff {P : Sequence → Prop} {s : Sequence} :
    s.Throughout P ↔ P s ∧ ∀ b ∈ s.blocks, b.Throughout P := by
  constructor
  · intro h
    refine ⟨h [] s rfl, fun b hb body hbody place t there => ?_⟩
    obtain ⟨i, hi⟩ := List.mem_iff_getElem?.mp hb
    obtain ⟨j, hj⟩ := List.mem_iff_getElem?.mp hbody
    refine h ((i, j) :: place) t ?_
    simp only [body?, hi, hj, Option.bind_some, there]
  · rintro ⟨here, inside⟩ (_ | ⟨⟨i, j⟩, place⟩) t there
    · cases there
      exact here
    · obtain ⟨b, hi, there⟩ := Option.bind_eq_some_iff.mp there
      obtain ⟨body, hj, there⟩ := Option.bind_eq_some_iff.mp there
      exact inside b (List.mem_of_getElem? hi) body (List.mem_of_getElem? hj) place t there

theorem Sequence.Throughout.body? {P : Sequence → Prop} {s inside : Sequence}
    (h : s.Throughout P) {place : List (Nat × Nat)} (here : s.body? place = some inside) :
    inside.Throughout P := by
  intro place' t there
  refine h (place ++ place') t ?_
  rw [Sequence.body?_append, here]
  exact there

theorem Sequence.throughout_inOrder_reset (s : Sequence) : s.reset.Throughout InOrder := by
  intro place t there
  rw [body?_reset] at there
  obtain ⟨body, -, rfl⟩ := Option.map_eq_some_iff.mp there
  exact body.inOrder_reset

theorem Sequence.Throughout.rearmed {s : Sequence} (h : s.Throughout InOrder) :
    s.rearmed.Throughout InOrder := by
  unfold Sequence.rearmed
  split
  · exact s.throughout_inOrder_reset
  · exact h

theorem Block.throughout_loop {stage : Stage} {c : Option String} {body : Sequence}
    (h : body.Throughout Sequence.InOrder) :
    (Block.loop stage c body).Throughout Sequence.InOrder := by
  intro s hs
  rw [List.mem_singleton.mp hs]
  exact h

theorem Block.throughout_afterPass {c : Option String} {body : Sequence}
    (h : body.Throughout Sequence.InOrder) (r : Except ε (Step ι)) :
    (afterPass c body r).2.Throughout Sequence.InOrder := by
  unfold afterPass
  split <;> exact throughout_loop h

/-- Stepping the branch at an index leaves the bodies of the branches in order, if stepping
them by themselves does. -/
theorem Branch.throughout_stepAt {branches : List Branch} {p : Nat × σ}
    (inOrder : ∀ s ∈ branches.map Branch.body, s.Throughout Sequence.InOrder)
    (inside : ∀ b ∈ branches, (outcome (b.body.step host) p).1.2.Throughout Sequence.InOrder)
    (i : Nat) : ∀ s ∈ (outcome (Branch.stepAt host i branches) p).1.2.map Branch.body,
      s.Throughout Sequence.InOrder := by
  cases here : branches[i]? with
  | none =>
    rw [Branch.outcome_stepAt_of_none here]
    exact inOrder
  | some b =>
    rw [Branch.outcome_stepAt here, List.map_set]
    intro s hs
    rcases List.mem_or_eq_of_mem_set hs with hs | rfl
    · exact inOrder s hs
    · exact inside b (List.mem_of_getElem? here)

/-- A step leaves every sequence inside a sequence, or inside a block, in order. -/
theorem Block.inOrder_steps :
    (∀ (s : Sequence) (p : Nat × σ), s.Throughout Sequence.InOrder →
      (outcome (s.step host) p).1.2.Throughout Sequence.InOrder) ∧
    ∀ (b : Block) (p : Nat × σ), b.Throughout Sequence.InOrder →
      (outcome (b.step host) p).1.2.Throughout Sequence.InOrder := by
  refine Block.step_induction ?nil ?cons ?item ?exec ?leave ?loop ?choice
  case nil =>
    intro behind stage p h
    obtain ⟨here, inside⟩ := Sequence.throughout_iff.mp h
    rw [Sequence.step]
    exact Sequence.throughout_iff.mpr ⟨⟨here.behind, here.ahead⟩, inside⟩
  case cons =>
    intro behind b ahead stage ih p h
    obtain ⟨here, inside⟩ := Sequence.throughout_iff.mp h
    have stepped := ih p (inside b (by simp [Sequence.blocks]))
    simp only [Sequence.step, outcome_bind, outcome_pure]
    refine Sequence.throughout_iff.mpr ⟨here.advance _ _, fun c hc => ?_⟩
    rw [Sequence.blocks_advance] at hc
    rcases List.mem_append.mp hc with hc | hc
    · exact inside c (List.mem_append_left _ hc)
    · rcases List.mem_cons.mp hc with rfl | hc
      · exact stepped
      · exact inside c (List.mem_append_right _ (List.mem_cons_of_mem b hc))
  case item =>
    intro stage condition name value p h
    simp only [Block.step]
    split <;> exact fun body hbody => absurd hbody List.not_mem_nil
  case exec =>
    intro stage condition value p h
    simp only [Block.step]
    split <;> exact fun body hbody => absurd hbody List.not_mem_nil
  case leave =>
    intro stage condition p h
    simp only [Block.step]
    split <;> exact fun body hbody => absurd hbody List.not_mem_nil
  case loop =>
    intro stage c body ih p h
    by_cases hs : stage = .finished
    · simpa [Block.step, hs] using h
    · -- the body that is stepped is the one that ended made ready, or else as it is
      have ready : body.rearmed.Throughout Sequence.InOrder :=
        (h body (List.mem_singleton.mpr rfl)).rearmed
      rw [Block.step_loop hs, outcome_bind]
      rcases outcome (Block.asksPass host c body.rearmed) p with ⟨_ | _ | _, q⟩
      · exact Block.throughout_loop ready
      · exact Block.throughout_loop ready
      · exact Block.throughout_afterPass (ih q ready) _
  case choice =>
    intro stage branches chosen ih p h
    by_cases hs : stage = .finished
    · simpa [Block.step, hs] using h
    · rw [Block.step_choice hs, outcome_bind]
      rcases outcome (Block.asksChoice host branches chosen) p with ⟨_ | _ | i, q⟩
      · exact h
      · exact h
      · exact Branch.throughout_stepAt h (fun b mem =>
          ih b mem q (h b.body (List.mem_map_of_mem mem))) i

/-- **A step leaves every sequence inside in order**, whatever it comes to. -/
theorem Sequence.inOrder_step (s : Sequence) (p : Nat × σ) (h : s.Throughout Sequence.InOrder) :
    (outcome (s.step host) p).1.2.Throughout Sequence.InOrder :=
  Block.inOrder_steps.1 s p h

/-! ## Runs -/

namespace Sequence

/-- A sequence comes to another one by steps, each of them for some host and in some
state. What they come to does not matter: a `leave` that ended the sequence and an error
are followed by further steps like everything else. -/
inductive Steps (s : Sequence) : Sequence → Prop
  | refl : Steps s s
  | step {σ ε ι : Type} {t : Sequence} (host : Host (StateT Nat (StateM σ)) ε ι) (p : Nat × σ)
      (steps : Steps s t) : Steps s (outcome (t.step host) p).1.2

theorem Steps.reset_eq {s t : Sequence} (steps : s.Steps t) : t.reset = s.reset := by
  induction steps with
  | refl => rfl
  | step host p _ ih => rw [reset_step, ih]

theorem Steps.inOrder {s t : Sequence} (steps : s.Steps t) (h : s.Throughout InOrder) :
    t.Throughout InOrder := by
  induction steps with
  | refl => exact h
  | step host p _ ih => exact inOrder_step _ p ih

/-- A state of a sequence that was compiled as `start`. -/
structure IsStateOf (start now : Sequence) : Prop where
  /-- To be compiled is to be at the start. -/
  fresh : start.IsFresh
  /-- To be made ready is to be as compiled. -/
  reset : now.reset = start
  /-- The same holds of the blocks one by one. -/
  reset_blocks : now.blocks.map Block.reset = start.blocks
  /-- The blocks in front of the position are done with. -/
  finished : ∀ b ∈ now.behind, b.stage = .finished
  /-- The blocks behind the one it is at are as compiled. -/
  untouched : now.ahead.tail = start.blocks.drop (now.behind.length + 1)

theorem InOrder.isStateOf {start now : Sequence} (h : now.InOrder) (ready : now.reset = start) :
    start.IsStateOf now where
  fresh := ready ▸ now.isFresh_reset
  reset := ready
  reset_blocks := by rw [← ready, blocks_reset]
  finished := h.behind
  untouched := by
    have as_compiled : now.ahead.tail.map Block.reset = now.ahead.tail := by
      rw [List.map_congr_left h.ahead, List.map_id']
    rw [← ready, blocks_reset, ← List.map_drop, blocks, ← List.length_reverse,
      List.drop_length_add_append, List.drop_one, as_compiled]

/-- A state of a sequence that was compiled as `start`, at every depth. -/
def IsStateThroughout (start now : Sequence) : Prop :=
  ∀ place, Option.Rel IsStateOf (start.body? place) (now.body? place)

theorem Throughout.isStateThroughout {start now : Sequence} (h : now.Throughout InOrder)
    (ready : now.reset = start) : start.IsStateThroughout now := by
  intro place
  have same : start.body? place = (now.body? place).map reset := by rw [← body?_reset, ready]
  rw [same]
  cases there : now.body? place with
  | none => exact .none
  | some inside => exact .some ((h place inside there).isStateOf rfl)

theorem reset_of_compile {body : List Instruction} {program : Sequence}
    (compiled : Program.compile body = .ok program) : program.reset = program := by
  obtain ⟨blocks, inside, rfl⟩ := exists_compilesTo_of_compile compiled
  exact inside.reset

/-- **A program is made ready completely.** Whatever state a compiled program comes to,
at every place in it is a state of the body that was compiled there. So `reset` makes
the body there what it was, and each of its blocks: at the first block, no block begun
and no branch chosen. A body that has ended stays in that state until its loop goes on, and
what the loop then makes of it is the body that was compiled. -/
theorem isStateThroughout_of_steps {body : List Instruction} {program now : Sequence}
    (compiled : Program.compile body = .ok program) (steps : program.Steps now) :
    program.IsStateThroughout now ∧
    ∀ place start inside, program.body? place = some start → now.body? place = some inside →
      inside.isFinished = true → inside.rearmed = start := by
  have as_compiled := reset_of_compile compiled
  have ordered : now.Throughout InOrder :=
    steps.inOrder (as_compiled ▸ program.throughout_inOrder_reset)
  have ready : now.reset = program := steps.reset_eq.trans as_compiled
  refine ⟨ordered.isStateThroughout ready, ?_⟩
  intro place start inside compiled_there there ended
  have same := body?_reset place now
  rw [ready, compiled_there, there] at same
  rw [rearmed, if_pos ended]
  exact (Option.some.inj same).symm

/-- A host for whom all conditions hold. -/
def consenting : Host (StateT Nat (StateM Unit)) String String where
  holds _ := pure (.ok true)
  item _ value := pure (.ok value)
  exec _ := pure (.ok ())

/-- The sequence after three steps in which all conditions hold. -/
def thriceStepped (s : Sequence) : Sequence :=
  let stepped (s : Sequence) := (outcome (s.step consenting) (0, ())).1.2
  stepped (stepped (stepped s))

theorem steps_thriceStepped (s : Sequence) : s.Steps s.thriceStepped :=
  .step consenting (0, ()) (.step consenting (0, ()) (.step consenting (0, ()) .refl))

/-- A loop over a conditional, in the middle of a run. The pass over its body has ended in
the third step, and the body stays as it is, with the branch it chose and the item that was
shown there. -/
theorem isStateThroughout_of_steps_ended :
    ∃ program now inside,
      Program.compile [.loop none [.ifThen "a" [.item none none "x"]]] = .ok program ∧
      program.Steps now ∧ now.blocks.map Block.stage = [.running] ∧
      now.body? [(0, 0)] = some inside ∧ inside.isFinished = true ∧
      inside.blocks.map Block.chosen? = [some 0] ∧
      program.IsStateThroughout now ∧ program.body? [(0, 0)] = some inside.rearmed := by
  let body : Sequence :=
    .ofBlocks [.choice .fresh [⟨some "a", .ofBlocks [.item .fresh none none "x"]⟩] none]
  let program : Sequence := .ofBlocks [.loop .fresh none body]
  let inside : Sequence :=
    ⟨[.choice .finished [⟨some "a", ⟨[.item .finished none none "x"], [], .finished⟩⟩] (some 0)],
      [], .finished⟩
  have compiled : Program.compile [.loop none [.ifThen "a" [.item none none "x"]]] =
    .ok program := rfl
  have stepped : program.thriceStepped = ⟨[], [.loop .running none inside], .running⟩ := by
    with_unfolding_all rfl
  have there : program.thriceStepped.body? [(0, 0)] = some inside := by rw [stepped]; rfl
  obtain ⟨throughout, rearmed⟩ :=
    isStateThroughout_of_steps compiled program.steps_thriceStepped
  refine ⟨program, program.thriceStepped, inside, compiled, program.steps_thriceStepped, ?_, there,
    rfl, rfl, throughout, ?_⟩
  · rw [stepped]
    rfl
  · rw [rearmed [(0, 0)] body inside rfl there rfl]
    rfl

end Sequence

end WatchView
