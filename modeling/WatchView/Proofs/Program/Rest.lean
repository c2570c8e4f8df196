import WatchView.Proofs.Program.Meaning
/-!
# What is left of a program

`Rest` says how a program goes on from any point its steps can leave it at,
and how many steps it takes: what remains of the block it is in, and the
blocks behind it. It is the meaning of `Means` with the progress of the
blocks filled in. A loop goes on with its body as its next step makes it
ready. One step takes one off the rest (`Sequence.countsDown`), so driving a
program counts its rest down.
-/

namespace WatchView

variable {σ ε ι : Type}

/-! ## Outcomes of the parts of a step -/

/-- A block that is passed over once it has ended. -/
def Block.isFinished (b : Block) : Bool := b.stage == .finished

/-- The single acts of blocks: what the block asks for if its condition
holds, and the condition. -/
def Block.act? (host : Host (StateT Nat (StateM σ)) ε ι) :
    Block → Option (Option String × StateT Nat (StateM σ) (Except ε (Step ι)))
  | .item _ condition name value => some (condition, do
      match ← host.item name value with
      | .error e => pure (.error e)
      | .ok shown => pure (.ok (.item shown)))
  | .exec _ condition value => some (condition, do
      match ← host.exec value with
      | .error e => pure (.error e)
      | .ok _ => pure (.ok .nothing))
  | .leave _ condition => some (condition, pure (.ok .left))
  | _ => none

/-- The conditions of branches. -/
abbrev conditionsOf (branches : List Branch) : List (Option String) :=
  branches.map Branch.condition

/-! ## The rest -/

/-- What can be left to do: blocks, one block, or a pass over the body of a
loop and the passes behind it. -/
inductive Task where
  | blocks (ahead : List Block)
  | block (b : Block)
  | pass (condition : Option String) (body : Sequence)

/-- How a step's result ends a block that is run in one step. -/
inductive EndsBy : Except ε (Step ι) → List ι → Ending ε → Prop
  | failed {e : ε} : EndsBy (.error e) [] (.failed e)
  | left : EndsBy (.ok .left) [] .left
  | nothing : EndsBy (.ok .nothing) [] .done
  | item {x : ι} : EndsBy (.ok (.item x)) [x] .done

/-- `Rest host n task p items e q`: begun in the state `p`, the task shows
these items in `n` steps, ends by `e`, and leaves the state `q`. -/
inductive Rest (host : Host (StateT Nat (StateM σ)) ε ι) :
    Nat → Task → Nat × σ → List ι → Ending ε → Nat × σ → Prop
  | nil {p : Nat × σ} : Rest host 1 (.blocks []) p [] .done p
  | cons {m n : Nat} {b : Block} {ahead : List Block} {p p₁ q : Nat × σ} {xs ys : List ι}
      {e : Ending ε} (first : Rest host m (.block b) p xs .done p₁)
      (others : Rest host n (.blocks ahead) p₁ ys e q) :
      Rest host (m + n) (.blocks (b :: ahead)) p (xs ++ ys) e q
  | stop {n : Nat} {b : Block} {ahead : List Block} {p q : Nat × σ} {xs : List ι}
      {e : Ending ε} (first : Rest host n (.block b) p xs e q) (ends : e ≠ .done) :
      Rest host n (.blocks (b :: ahead)) p xs e q
  | idle {b : Block} {p : Nat × σ} (ended : b.isFinished = true) :
      Rest host 1 (.block b) p [] .done p
  | act {b : Block} {condition : Option String}
      {act : StateT Nat (StateM σ) (Except ε (Step ι))} {r : Except ε (Step ι)}
      {p q : Nat × σ} {xs : List ι} {e : Ending ε} (going : b.isFinished = false)
      (acts : b.act? host = some (condition, act))
      (done : outcome (host.guarded condition act) p = (r, q)) (ends : EndsBy r xs e) :
      Rest host 1 (.block b) p xs e q
  | loopFails {stage : Stage} {condition : Option String} {body : Sequence} {p q : Nat × σ}
      {e : ε} (going : stage ≠ .finished) (fresh : body.rearmed.stage = .fresh)
      (asked : outcome (host.holds condition) p = (.error e, q)) :
      Rest host 1 (.block (.loop stage condition body)) p [] (.failed e) q
  | loopEnds {stage : Stage} {condition : Option String} {body : Sequence} {p q : Nat × σ}
      (going : stage ≠ .finished) (fresh : body.rearmed.stage = .fresh)
      (asked : outcome (host.holds condition) p = (.ok false, q)) :
      Rest host 1 (.block (.loop stage condition body)) p [] .done q
  | enter {n : Nat} {stage : Stage} {condition : Option String} {body : Sequence}
      {p p₁ q : Nat × σ} {xs : List ι} {e : Ending ε} (going : stage ≠ .finished)
      (fresh : body.rearmed.stage = .fresh)
      (asked : outcome (host.holds condition) p = (.ok true, p₁))
      (pass : Rest host n (.pass condition body.rearmed) p₁ xs e q) :
      Rest host n (.block (.loop stage condition body)) p xs e q
  | resume {n : Nat} {stage : Stage} {condition : Option String} {body : Sequence}
      {p q : Nat × σ} {xs : List ι} {e : Ending ε} (going : stage ≠ .finished)
      (begun : body.rearmed.stage ≠ .fresh)
      (pass : Rest host n (.pass condition body.rearmed) p xs e q) :
      Rest host n (.block (.loop stage condition body)) p xs e q
  | again {m n : Nat} {condition : Option String} {body : Sequence} {p p₁ q : Nat × σ}
      {xs ys : List ι} {e : Ending ε} (once : Rest host m (.blocks body.ahead) p xs .done p₁)
      (others : Rest host n (.block (.loop .running condition body.reset)) p₁ ys e q) :
      Rest host (m + n) (.pass condition body) p (xs ++ ys) e q
  | broken {n : Nat} {condition : Option String} {body : Sequence} {p q : Nat × σ}
      {xs : List ι} (once : Rest host n (.blocks body.ahead) p xs .left q) :
      Rest host n (.pass condition body) p xs .done q
  | passFails {n : Nat} {condition : Option String} {body : Sequence} {p q : Nat × σ}
      {xs : List ι} {e : ε} (once : Rest host n (.blocks body.ahead) p xs (.failed e) q) :
      Rest host n (.pass condition body) p xs (.failed e) q
  | choiceFails {stage : Stage} {branches : List Branch} {p q : Nat × σ} {e : ε}
      (going : stage ≠ .finished)
      (asked : outcome (host.firstHolding (conditionsOf branches)) p = (.error e, q)) :
      Rest host 1 (.block (.choice stage branches none)) p [] (.failed e) q
  | noChoice {stage : Stage} {branches : List Branch} {p q : Nat × σ}
      (going : stage ≠ .finished)
      (asked : outcome (host.firstHolding (conditionsOf branches)) p = (.ok none, q)) :
      Rest host 1 (.block (.choice stage branches none)) p [] .done q
  | choose {n i : Nat} {stage : Stage} {branches : List Branch} {p p₁ q : Nat × σ}
      {xs : List ι} {e : Ending ε} (going : stage ≠ .finished)
      (asked : outcome (host.firstHolding (conditionsOf branches)) p = (.ok (some i), p₁))
      (run : Rest host n (.block (.choice .running branches (some i))) p₁ xs e q) :
      Rest host n (.block (.choice stage branches none)) p xs e q
  | noBranch {i : Nat} {stage : Stage} {branches : List Branch} {p : Nat × σ}
      (going : stage ≠ .finished) (missing : branches[i]? = none) :
      Rest host 1 (.block (.choice stage branches (some i))) p [] .done p
  | branch {n i : Nat} {stage : Stage} {branches : List Branch} {b : Branch}
      {p q : Nat × σ} {xs : List ι} {e : Ending ε} (going : stage ≠ .finished)
      (here : branches[i]? = some b) (run : Rest host n (.blocks b.body.ahead) p xs e q) :
      Rest host n (.block (.choice stage branches (some i))) p xs e q

end WatchView
