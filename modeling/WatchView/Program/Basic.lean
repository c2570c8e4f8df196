import WatchView.Evaluation.ExpandError
/-!
# Programs

The body of a custom list is compiled into a program: a sequence of blocks
that can be run one step at a time and left off after any step. Each block
keeps the stage it is in. A conditional and the branches that follow it in
the body become one block.

`reset` makes a block ready to run again: it is as it was compiled. A loop
makes its body ready when it goes on behind the end of a pass, so `rearmed`
looks at whether a sequence has ended. What is made ready is no larger than
it was, by which stepping a program comes to an end.
-/

namespace WatchView

/-- How far a block has come. -/
inductive Stage where
  | fresh
  | running
  | finished
deriving Repr, DecidableEq, Inhabited

mutual

/-- Blocks to be run in order. -/
structure Sequence where
  /-- The blocks that are done with, the last one first. -/
  behind : List Block
  /-- The block to run and those after it. -/
  ahead : List Block
  stage : Stage

/-- A block of a program. -/
inductive Block where
  /-- Show a value. -/
  | item (stage : Stage) (condition name : Option String) (value : String)
  /-- Evaluate an expression for its effect. -/
  | exec (stage : Stage) (condition : Option String) (value : String)
  /-- Leave the innermost loop. -/
  | leave (stage : Stage) (condition : Option String)
  /-- Repeat as long as the condition holds. -/
  | loop (stage : Stage) (condition : Option String) (body : Sequence)
  /-- Run the first branch whose condition holds. -/
  | choice (stage : Stage) (branches : List Branch) (chosen : Option Nat)

/-- A branch; the last one may be without a condition. -/
structure Branch where
  condition : Option String
  body : Sequence

end

namespace Block

/-- How far the block has come. -/
def stage : Block → Stage
  | item stage .. => stage
  | exec stage .. => stage
  | leave stage _ => stage
  | loop stage .. => stage
  | choice stage .. => stage

end Block

namespace Sequence

/-- A sequence not yet begun. -/
def ofBlocks (blocks : List Block) : Sequence := ⟨[], blocks, .fresh⟩

/-- Whether the sequence has ended. -/
def isFinished (s : Sequence) : Bool := s.stage == .finished

/-- The blocks of the sequence in order. -/
def blocks (s : Sequence) : List Block := s.behind.reverse ++ s.ahead

end Sequence

/-! ## Making ready -/

mutual

/-- The sequence, ready to run again. -/
def Sequence.reset : Sequence → Sequence
  | ⟨behind, ahead, _⟩ => ⟨[], (Block.resetAll behind).reverse ++ Block.resetAll ahead, .fresh⟩

/-- The block, ready to run again. -/
def Block.reset : Block → Block
  | .item _ condition name value => .item .fresh condition name value
  | .exec _ condition value => .exec .fresh condition value
  | .leave _ condition => .leave .fresh condition
  | .loop _ condition body => .loop .fresh condition body.reset
  | .choice _ branches _ => .choice .fresh (Branch.resetAll branches) none

/-- The blocks, ready to run again. -/
def Block.resetAll : List Block → List Block
  | [] => []
  | b :: bs => b.reset :: Block.resetAll bs

/-- The branches, ready to run again. -/
def Branch.resetAll : List Branch → List Branch
  | [] => []
  | ⟨condition, body⟩ :: bs => ⟨condition, body.reset⟩ :: Branch.resetAll bs

end

/-- The sequence, made ready if it has ended. -/
def Sequence.rearmed (s : Sequence) : Sequence := if s.isFinished then s.reset else s

theorem sizeOf_append_succ {α : Type} [SizeOf α] (xs ys : List α) :
    sizeOf (xs ++ ys) + 1 = sizeOf xs + sizeOf ys := by
  induction xs with
  | nil => rw [List.nil_append, List.nil.sizeOf_spec, Nat.add_comm]
  | cons x xs ih =>
    rw [List.cons_append, List.cons.sizeOf_spec, List.cons.sizeOf_spec]
    omega

theorem sizeOf_reverse {α : Type} [SizeOf α] (xs : List α) : sizeOf xs.reverse = sizeOf xs := by
  induction xs with
  | nil => rfl
  | cons x xs ih =>
    have split := sizeOf_append_succ xs.reverse [x]
    simp only [List.reverse_cons, List.cons.sizeOf_spec, List.nil.sizeOf_spec] at split ⊢
    omega

mutual

/-- To make ready does not enlarge: nothing is smaller than a fresh stage and no choice. -/
theorem Sequence.sizeOf_reset_le : ∀ s : Sequence, sizeOf s.reset ≤ sizeOf s
  | ⟨behind, ahead, stage⟩ => by
    have before := Block.sizeOf_resetAll_le behind
    have after := Block.sizeOf_resetAll_le ahead
    have split := sizeOf_append_succ (Block.resetAll behind).reverse (Block.resetAll ahead)
    rw [sizeOf_reverse] at split
    cases stage <;> simp [Sequence.reset] <;> omega

theorem Block.sizeOf_reset_le : ∀ b : Block, sizeOf b.reset ≤ sizeOf b
  | .item stage .. => by cases stage <;> simp [Block.reset]
  | .exec stage .. => by cases stage <;> simp [Block.reset]
  | .leave stage _ => by cases stage <;> simp [Block.reset]
  | .loop stage _ body => by
    have inside := Sequence.sizeOf_reset_le body
    cases stage <;> simpa [Block.reset] using inside
  | .choice stage branches chosen => by
    have inside := Branch.sizeOf_resetAll_le branches
    cases stage <;> cases chosen <;> simp [Block.reset] <;> omega

theorem Block.sizeOf_resetAll_le : ∀ bs : List Block, sizeOf (Block.resetAll bs) ≤ sizeOf bs
  | [] => Nat.le_refl _
  | b :: bs => by
    have first := Block.sizeOf_reset_le b
    have others := Block.sizeOf_resetAll_le bs
    simp only [Block.resetAll, List.cons.sizeOf_spec]
    omega

theorem Branch.sizeOf_resetAll_le : ∀ bs : List Branch,
    sizeOf (Branch.resetAll bs) ≤ sizeOf bs
  | [] => Nat.le_refl _
  | ⟨condition, body⟩ :: bs => by
    have first := Sequence.sizeOf_reset_le body
    have others := Branch.sizeOf_resetAll_le bs
    simp only [Branch.resetAll, List.cons.sizeOf_spec, Branch.mk.sizeOf_spec]
    omega

end

theorem Sequence.sizeOf_rearmed_le (s : Sequence) : sizeOf s.rearmed ≤ sizeOf s := by
  unfold rearmed
  split
  · exact s.sizeOf_reset_le
  · exact Nat.le_refl _

/-! ## Compiling -/

namespace Program

mutual

/-- The body of an instruction, compiled; empty if it has none. -/
def compileBody : Instruction → Except ExpandError Sequence
  | .loop _ body => (compileFrom false body).map fun p => .ofBlocks p.2
  | .ifThen _ body => (compileFrom false body).map fun p => .ofBlocks p.2
  | .elseIf _ body => (compileFrom false body).map fun p => .ofBlocks p.2
  | .otherwise body => (compileFrom false body).map fun p => .ofBlocks p.2
  | _ => .ok (.ofBlocks [])
termination_by structural i => i

/-- Compile instructions. The answer is the branches at their start, which
belong to a conditional in front, and the blocks of the rest. A branch is
admitted only if `chained`: right behind a conditional or another branch. -/
def compileFrom (chained : Bool) :
    List Instruction → Except ExpandError (List Branch × List Block)
  | [] => .ok ([], [])
  | instruction :: rest =>
    match instruction with
    | .elseIf condition _ =>
      if chained then do
        let body ← compileBody instruction
        let (branches, blocks) ← compileFrom true rest
        pure (⟨some condition, body⟩ :: branches, blocks)
      else throw .strayBranch
    | .otherwise _ =>
      if chained then do
        let body ← compileBody instruction
        let (branches, blocks) ← compileFrom true rest
        pure (⟨none, body⟩ :: branches, blocks)
      else throw .strayBranch
    | .ifThen condition _ => do
      let body ← compileBody instruction
      let (branches, blocks) ← compileFrom true rest
      pure ([], .choice .fresh (⟨some condition, body⟩ :: branches) none :: blocks)
    | .loop condition _ => do
      let body ← compileBody instruction
      let (_, blocks) ← compileFrom false rest
      pure ([], .loop .fresh condition body :: blocks)
    | .item condition name value => do
      let (_, blocks) ← compileFrom false rest
      pure ([], .item .fresh condition name value :: blocks)
    | .exec condition value => do
      let (_, blocks) ← compileFrom false rest
      pure ([], .exec .fresh condition value :: blocks)
    | .leave condition => do
      let (_, blocks) ← compileFrom false rest
      pure ([], .leave .fresh condition :: blocks)
    | .unsupported element => throw (.unknownInstruction element)
termination_by structural is => is

end

/-- Compile the body of a custom list. -/
def compile (body : List Instruction) : Except ExpandError Sequence :=
  (compileFrom false body).map fun p => .ofBlocks p.2

end Program

end WatchView
