import WatchView.Bounded
import WatchView.Listing.Basic
/-!
# Walks along pointers

A walk visits the nodes of a linked list in order, or those of a binary tree
from left to right, and can be left off after any node. A null pointer is no
node. Each pointer is followed when the walk needs it: the next node of a
list, or the right subtree of a tree, only once another node is asked for.

The way down the left edge of a tree may have no end if the pointers form a
cycle. It is given a bound on its length and has no outcome beyond it.
-/

namespace WatchView

variable {σ ν : Type}

namespace Walk

/-- A walk from a head or root. -/
def start (head : Variable ν) : Walk ν := { place := .before head }

/-- A walk with nothing left. -/
def done : Walk ν := { place := .nowhere }

/-- Follow a pointer of a node. -/
def follow (ev : Evaluator σ ν) (scope : Scope (Variable ν)) (node : Variable ν)
    (pointer : String) : StateM σ (Except EvalError (Variable ν)) := do
  return (← ev.evaluate pointer node scope none).map Answer.toVariable

/-- Whether a pointer is null. -/
def isNull (ev : Evaluator σ ν) (node : Variable ν) : StateM σ Bool := do
  return (node.facts ev.debugger.toInspector (← get)).isNull

/-! ## Linked lists -/

/-- Visit a node of a list, unless it is null. -/
def visit (ev : Evaluator σ ν) (node : Variable ν) :
    StateM σ (Except EvalError (Option (Variable ν)) × Walk ν) := do
  if ← isNull ev node then pure (.ok none, done)
  else pure (.ok (some node), { place := .behind node })

/-- The next node of a list. -/
def nextOfList (ev : Evaluator σ ν) (scope : Scope (Variable ν)) (next : String) (w : Walk ν) :
    StateM σ (Except EvalError (Option (Variable ν)) × Walk ν) := do
  match w.place with
  | .nowhere => pure (.ok none, w)
  | .before node => visit ev node
  | .behind node =>
    match ← follow ev scope node next with
    | .error e => pure (.error e, done)
    | .ok node => visit ev node

/-! ## Trees -/

/-- Go down the left edge of a subtree and put its nodes on the stack. -/
def descend (ev : Evaluator σ ν) (scope : Scope (Variable ν)) (left : String) :
    Nat → Variable ν → List (Variable ν) → Bounded σ (Except EvalError (List (Variable ν)))
  | 0, _, _ => .unfinished
  | bound + 1, node, stack => do
    if ← isNull ev node then pure (.ok stack)
    else
      match ← follow ev scope node left with
      | .error e => pure (.error e)
      | .ok child => descend ev scope left bound child (node :: stack)

/-- Visit the node on top of the stack. -/
def pop : List (Variable ν) → Option (Variable ν) × Walk ν
  | [] => (none, done)
  | node :: stack => (some node, { place := .behind node, stack })

/-- Visit the leftmost node of a subtree, or else what is on the stack. -/
def visitLeftmost (ev : Evaluator σ ν) (scope : Scope (Variable ν)) (bound : Nat)
    (left : String) (node : Variable ν) (stack : List (Variable ν)) :
    Bounded σ (Except EvalError (Option (Variable ν)) × Walk ν) := do
  match ← descend ev scope left bound node stack with
  | .error e => pure (.error e, done)
  | .ok stack =>
    let (node, w) := pop stack
    pure (.ok node, w)

/-- The next node of a tree, from left to right. -/
def nextOfTree (ev : Evaluator σ ν) (scope : Scope (Variable ν)) (bound : Nat)
    (left right : String) (w : Walk ν) :
    Bounded σ (Except EvalError (Option (Variable ν)) × Walk ν) := do
  match w.place with
  | .nowhere =>
    let (node, w) := pop w.stack
    pure (.ok node, w)
  | .before node => visitLeftmost ev scope bound left node w.stack
  | .behind node =>
    match ← follow ev scope node right with
    | .error e => pure (.error e, done)
    | .ok node => visitLeftmost ev scope bound left node w.stack

/-- The next node. -/
def next (ev : Evaluator σ ν) (scope : Scope (Variable ν)) (bound : Nat) (links : Links)
    (w : Walk ν) : Bounded σ (Except EvalError (Option (Variable ν)) × Walk ν) :=
  match links with
  | .list pointer => nextOfList ev scope pointer w
  | .tree left right => nextOfTree ev scope bound left right w

end Walk

end WatchView
