import WatchView.Program.Basic
/-!
# Running programs

A program is run by a host, who evaluates its expressions. One step runs at
most one instruction, or finds that a sequence has come to its end, and
answers with what happened and the program as it is now. After a failed
evaluation the program is as far as it came.

A loop checks its condition before each pass over its body and not inside a
pass. When a pass ends, the body stays as it is until the next step of the
loop, which makes it ready first. A `leave` ends every sequence it is in up to
the innermost loop, and the loop with them.
-/

namespace WatchView

/-- What a step did. -/
inductive Step (ι : Type) where
  /-- Nothing that shows. -/
  | nothing
  /-- A value was shown. -/
  | item (value : ι)
  /-- A `leave` ends the loop it is in. -/
  | left
deriving Repr, DecidableEq, Inhabited

/-- Who evaluates the expressions of a program. -/
structure Host (m : Type → Type) (ε ι : Type) where
  /-- Whether a condition holds. -/
  holds : Option String → m (Except ε Bool)
  /-- Show a value under a name. -/
  item : Option String → String → m (Except ε ι)
  /-- Evaluate an expression for its effect. -/
  exec : String → m (Except ε Unit)

namespace Host

variable {m : Type → Type} [Monad m] {ε ι : Type}

/-- The index of the first condition that holds. -/
def firstHolding (host : Host m ε ι) : List (Option String) → m (Except ε (Option Nat))
  | [] => pure (.ok none)
  | condition :: conditions => do
    match ← host.holds condition with
    | .error e => pure (.error e)
    | .ok true => pure (.ok (some 0))
    | .ok false =>
      match ← host.firstHolding conditions with
      | .error e => pure (.error e)
      | .ok index => pure (.ok (index.map (· + 1)))

/-- Do `act` if a condition holds. -/
def guarded (host : Host m ε ι) (condition : Option String) (act : m (Except ε (Step ι))) :
    m (Except ε (Step ι)) := do
  match ← host.holds condition with
  | .error e => pure (.error e)
  | .ok false => pure (.ok .nothing)
  | .ok true => act

end Host

/-- The sequence after a step of its first block, which is now `block`. -/
def Sequence.advance {ε ι : Type} (behind : List Block) (block : Block) (ahead : List Block) :
    Except ε (Step ι) → Sequence
  | .ok .left => ⟨behind, block :: ahead, .finished⟩
  | .ok _ =>
    if block.stage = .finished then ⟨block :: behind, ahead, .running⟩
    else ⟨behind, block :: ahead, .running⟩
  | .error _ => ⟨behind, block :: ahead, .running⟩

/-- The loop after a step of its body, and what the step comes to. -/
def Block.afterPass {ε ι : Type} (condition : Option String) (body : Sequence) :
    Except ε (Step ι) → Except ε (Step ι) × Block
  | .ok .left => (.ok .nothing, .loop .finished condition body)
  | .ok step => (.ok step, .loop .running condition body)
  | .error e => (.error e, .loop .running condition body)

/-- The conditional after a step of the chosen branch. -/
def Block.afterBranch {ε ι : Type} (branches : List Branch) (index : Nat)
    (result : Except ε (Step ι)) : Block :=
  let ended : Bool := match result with
    | .ok _ => (branches[index]?).all fun b => b.body.isFinished
    | .error _ => false
  .choice (if ended then .finished else .running) branches (some index)

variable {m : Type → Type} [Monad m] {ε ι : Type}

mutual

/-- One step of a sequence. -/
def Sequence.step (host : Host m ε ι) : Sequence → m (Except ε (Step ι) × Sequence)
  | ⟨behind, [], _⟩ => pure (.ok .nothing, ⟨behind, [], .finished⟩)
  | ⟨behind, block :: ahead, _⟩ => do
    let (result, block) ← block.step host
    pure (result, .advance behind block ahead result)
termination_by s => sizeOf s

/-- One step of a block. A finished block does nothing. -/
def Block.step (host : Host m ε ι) : Block → m (Except ε (Step ι) × Block)
  | .item stage condition name value => do
    if stage = .finished then pure (.ok .nothing, .item stage condition name value)
    else
      let result ← host.guarded condition do
        match ← host.item name value with
        | .error e => pure (.error e)
        | .ok shown => pure (.ok (.item shown))
      pure (result, .item .finished condition name value)
  | .exec stage condition value => do
    if stage = .finished then pure (.ok .nothing, .exec stage condition value)
    else
      let result ← host.guarded condition do
        match ← host.exec value with
        | .error e => pure (.error e)
        | .ok _ => pure (.ok .nothing)
      pure (result, .exec .finished condition value)
  | .leave stage condition => do
    if stage = .finished then pure (.ok .nothing, .leave stage condition)
    else
      let result ← host.guarded condition (pure (.ok .left))
      pure (result, .leave .finished condition)
  | .loop stage condition body => do
    if stage = .finished then pure (.ok .nothing, .loop stage condition body)
    else
      let ready := body.rearmed
      match ← if ready.stage = .fresh then host.holds condition else pure (.ok true) with
      | .error e => pure (.error e, .loop .running condition ready)
      | .ok false => pure (.ok .nothing, .loop .finished condition ready)
      | .ok true =>
        let (result, body) ← Sequence.step host ready
        pure (Block.afterPass condition body result)
  | .choice stage branches chosen => do
    if stage = .finished then pure (.ok .nothing, .choice stage branches chosen)
    else
      match ←
        match chosen with
        | some index => pure (.ok (some index))
        | none => host.firstHolding (branches.map Branch.condition) with
      | .error e => pure (.error e, .choice .running branches none)
      | .ok none => pure (.ok .nothing, .choice .finished branches none)
      | .ok (some index) =>
        let (result, branches) ← Branch.stepAt host index branches
        pure (result, .afterBranch branches index result)
termination_by b => sizeOf b
decreasing_by
  · have := body.sizeOf_rearmed_le
    decreasing_with omega
  · decreasing_tactic

/-- One step of the branch at an index. -/
def Branch.stepAt (host : Host m ε ι) :
    Nat → List Branch → m (Except ε (Step ι) × List Branch)
  | _, [] => pure (.ok .nothing, [])
  | 0, ⟨condition, body⟩ :: branches => do
    let (result, body) ← body.step host
    pure (result, ⟨condition, body⟩ :: branches)
  | n + 1, branch :: branches => do
    let (result, branches) ← Branch.stepAt host n branches
    pure (result, branch :: branches)
termination_by _ branches => sizeOf branches

end

end WatchView
