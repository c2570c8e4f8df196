import WatchView.Program.Run
/-!
# What instructions mean

The meaning of the body of a custom list, said of the instructions
themselves and of whole executions, without blocks, stages or steps. A list
runs its instructions in order. A loop asks its condition before each pass
over its body. A `leave` that fires ends what it is in, up to the innermost
loop, or else the whole program. A conditional with the branches behind it
asks their conditions in order and runs the first branch whose condition
holds. A failed evaluation ends everything.

The host's answers may depend on all that went before, so an execution leads
from a state to a state. The state has the number of items so far in front.
-/

namespace WatchView

variable {σ ε ι : Type}

/-! ## States and outcomes -/

/-- The outcome of work that begins in a state: its answer and the state it
ends in. -/
def outcome {α : Type} (act : StateT Nat (StateM σ) α) (p : Nat × σ) : α × Nat × σ :=
  let r := act p.1 p.2
  (r.1.1, r.1.2, r.2)

@[simp] theorem outcome_pure {α : Type} (a : α) (p : Nat × σ) :
    outcome (pure a : StateT Nat (StateM σ) α) p = (a, p) := rfl

@[simp] theorem outcome_bind {α β : Type} (act : StateT Nat (StateM σ) α)
    (next : α → StateT Nat (StateM σ) β) (p : Nat × σ) :
    outcome (act >>= next) p = outcome (next (outcome act p).1) (outcome act p).2 := rfl

@[simp] theorem outcome_map {α β : Type} (f : α → β) (act : StateT Nat (StateM σ) α)
    (p : Nat × σ) : outcome (f <$> act) p = (f (outcome act p).1, (outcome act p).2) := rfl

/-- How an execution ends. -/
inductive Ending (ε : Type) where
  /-- It came to its end. -/
  | done
  /-- A `leave` fired. -/
  | left
  /-- An evaluation failed. -/
  | failed (error : ε)
deriving Repr, DecidableEq, Inhabited

/-- What an ending of a whole program amounts to: a `leave` outside of all
loops ends the program as its last instruction does. -/
def Ending.result : Ending ε → Except ε Unit
  | done => .ok ()
  | left => .ok ()
  | failed e => .error e

/-! ## Conditionals -/

/-- The branches at the start of a list of instructions. They belong to the
conditional in front of it. -/
def furtherBranches : List Instruction → List (Option String × List Instruction)
  | .elseIf condition body :: rest => (some condition, body) :: furtherBranches rest
  | .otherwise body :: rest => (none, body) :: furtherBranches rest
  | _ => []

/-- The instructions behind the branches at the start of a list. -/
def behindBranches : List Instruction → List Instruction
  | .elseIf _ _ :: rest => behindBranches rest
  | .otherwise _ :: rest => behindBranches rest
  | rest => rest

/-- The condition of an instruction that is run or passed over as a whole. -/
def Instruction.guard? : Instruction → Option (Option String)
  | .item condition _ _ => some condition
  | .exec condition _ => some condition
  | .leave condition => some condition
  | _ => none

/-- What can be executed: a list of instructions, one instruction with the
branches that belong to it, the branches of a conditional, or a loop. -/
inductive Phrase where
  | list (body : List Instruction)
  | one (instruction : Instruction) (further : List (Option String × List Instruction))
  | choice (branches : List (Option String × List Instruction))
  | loop (condition : Option String) (body : List Instruction)

/-! ## Executions -/

/-- `Means host phrase p items e q`: the execution of a phrase that begins in
the state `p` shows these items, ends by `e`, and leaves the state `q`. -/
inductive Means (host : Host (StateT Nat (StateM σ)) ε ι) :
    Phrase → Nat × σ → List ι → Ending ε → Nat × σ → Prop
  -- instructions in order
  | nil {p : Nat × σ} : Means host (.list []) p [] .done p
  | cons {i : Instruction} {rest : List Instruction} {p p₁ q : Nat × σ} {xs ys : List ι}
      {e : Ending ε} (first : Means host (.one i (furtherBranches rest)) p xs .done p₁)
      (others : Means host (.list (behindBranches rest)) p₁ ys e q) :
      Means host (.list (i :: rest)) p (xs ++ ys) e q
  | stop {i : Instruction} {rest : List Instruction} {p q : Nat × σ} {xs : List ι}
      {e : Ending ε} (first : Means host (.one i (furtherBranches rest)) p xs e q)
      (ends : e ≠ .done) : Means host (.list (i :: rest)) p xs e q
  -- single instructions
  | guardFails {i : Instruction} {further : List (Option String × List Instruction)}
      {condition : Option String} {p q : Nat × σ} {e : ε} (guarded : i.guard? = some condition)
      (asked : outcome (host.holds condition) p = (.error e, q)) :
      Means host (.one i further) p [] (.failed e) q
  | passedOver {i : Instruction} {further : List (Option String × List Instruction)}
      {condition : Option String} {p q : Nat × σ} (guarded : i.guard? = some condition)
      (asked : outcome (host.holds condition) p = (.ok false, q)) :
      Means host (.one i further) p [] .done q
  | item {condition name : Option String} {value : String}
      {further : List (Option String × List Instruction)} {p p₁ q : Nat × σ} {x : ι}
      (asked : outcome (host.holds condition) p = (.ok true, p₁))
      (shown : outcome (host.item name value) p₁ = (.ok x, q)) :
      Means host (.one (.item condition name value) further) p [x] .done q
  | itemFails {condition name : Option String} {value : String}
      {further : List (Option String × List Instruction)} {p p₁ q : Nat × σ} {e : ε}
      (asked : outcome (host.holds condition) p = (.ok true, p₁))
      (shown : outcome (host.item name value) p₁ = (.error e, q)) :
      Means host (.one (.item condition name value) further) p [] (.failed e) q
  | exec {condition : Option String} {value : String}
      {further : List (Option String × List Instruction)} {p p₁ q : Nat × σ} {u : Unit}
      (asked : outcome (host.holds condition) p = (.ok true, p₁))
      (done : outcome (host.exec value) p₁ = (.ok u, q)) :
      Means host (.one (.exec condition value) further) p [] .done q
  | execFails {condition : Option String} {value : String}
      {further : List (Option String × List Instruction)} {p p₁ q : Nat × σ} {e : ε}
      (asked : outcome (host.holds condition) p = (.ok true, p₁))
      (done : outcome (host.exec value) p₁ = (.error e, q)) :
      Means host (.one (.exec condition value) further) p [] (.failed e) q
  | leave {condition : Option String} {further : List (Option String × List Instruction)}
      {p q : Nat × σ} (asked : outcome (host.holds condition) p = (.ok true, q)) :
      Means host (.one (.leave condition) further) p [] .left q
  | repeated {condition : Option String} {body : List Instruction}
      {further : List (Option String × List Instruction)} {p q : Nat × σ} {xs : List ι}
      {e : Ending ε} (passes : Means host (.loop condition body) p xs e q) :
      Means host (.one (.loop condition body) further) p xs e q
  | chosen {condition : String} {body : List Instruction}
      {further : List (Option String × List Instruction)} {p q : Nat × σ} {xs : List ι}
      {e : Ending ε} (choice : Means host (.choice ((some condition, body) :: further)) p xs e q) :
      Means host (.one (.ifThen condition body) further) p xs e q
  -- the branches of a conditional
  | noBranch {p : Nat × σ} : Means host (.choice []) p [] .done p
  | branchFails {condition : Option String} {body : List Instruction}
      {more : List (Option String × List Instruction)} {p q : Nat × σ} {e : ε}
      (asked : outcome (host.holds condition) p = (.error e, q)) :
      Means host (.choice ((condition, body) :: more)) p [] (.failed e) q
  | branch {condition : Option String} {body : List Instruction}
      {more : List (Option String × List Instruction)} {p p₁ q : Nat × σ} {xs : List ι}
      {e : Ending ε} (asked : outcome (host.holds condition) p = (.ok true, p₁))
      (run : Means host (.list body) p₁ xs e q) :
      Means host (.choice ((condition, body) :: more)) p xs e q
  | nextBranch {condition : Option String} {body : List Instruction}
      {more : List (Option String × List Instruction)} {p p₁ q : Nat × σ} {xs : List ι}
      {e : Ending ε} (asked : outcome (host.holds condition) p = (.ok false, p₁))
      (others : Means host (.choice more) p₁ xs e q) :
      Means host (.choice ((condition, body) :: more)) p xs e q
  -- the passes of a loop
  | loopFails {condition : Option String} {body : List Instruction} {p q : Nat × σ} {e : ε}
      (asked : outcome (host.holds condition) p = (.error e, q)) :
      Means host (.loop condition body) p [] (.failed e) q
  | loopEnds {condition : Option String} {body : List Instruction} {p q : Nat × σ}
      (asked : outcome (host.holds condition) p = (.ok false, q)) :
      Means host (.loop condition body) p [] .done q
  | pass {condition : Option String} {body : List Instruction} {p p₁ p₂ q : Nat × σ}
      {xs ys : List ι} {e : Ending ε}
      (asked : outcome (host.holds condition) p = (.ok true, p₁))
      (once : Means host (.list body) p₁ xs .done p₂)
      (again : Means host (.loop condition body) p₂ ys e q) :
      Means host (.loop condition body) p (xs ++ ys) e q
  | passLeft {condition : Option String} {body : List Instruction} {p p₁ q : Nat × σ}
      {xs : List ι} (asked : outcome (host.holds condition) p = (.ok true, p₁))
      (once : Means host (.list body) p₁ xs .left q) :
      Means host (.loop condition body) p xs .done q
  | passFails {condition : Option String} {body : List Instruction} {p p₁ q : Nat × σ}
      {xs : List ι} {e : ε} (asked : outcome (host.holds condition) p = (.ok true, p₁))
      (once : Means host (.list body) p₁ xs (.failed e) q) :
      Means host (.loop condition body) p xs (.failed e) q

/-! ## Driving a program -/

/-- The item a step shows, if any. -/
def Step.items : Step ι → List ι
  | .item value => [value]
  | _ => []

/-- `Drives host program p items result q`: driven from the state `p` step by
step until it is finished or a step fails, the program shows these items,
and leaves the state `q`. -/
inductive Drives (host : Host (StateT Nat (StateM σ)) ε ι) :
    Sequence → Nat × σ → List ι → Except ε Unit → Nat × σ → Prop
  | finished {program : Sequence} {p : Nat × σ} (ended : program.isFinished = true) :
      Drives host program p [] (.ok ()) p
  | failed {program program' : Sequence} {p q : Nat × σ} {e : ε}
      (going : program.isFinished = false)
      (stepped : outcome (program.step host) p = ((.error e, program'), q)) :
      Drives host program p [] (.error e) q
  | step {program program' : Sequence} {p p₁ q : Nat × σ} {s : Step ι} {xs : List ι}
      {result : Except ε Unit} (going : program.isFinished = false)
      (stepped : outcome (program.step host) p = ((.ok s, program'), p₁))
      (others : Drives host program' p₁ xs result q) :
      Drives host program p (s.items ++ xs) result q

end WatchView
