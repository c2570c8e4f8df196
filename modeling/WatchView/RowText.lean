import WatchView.Children
import WatchView.Display
import WatchView.Listing.Reach
/-!
# The text of a row

A variable shown by its rule has the text of the rule if the rule's views
admit it, and any other has the text of what it was made from. A variable
shown as one of its children has the text of that child.
-/

namespace WatchView

namespace Engine

variable {σ ν : Type}

/-- The child at an index. -/
def child? (engine : Engine σ ν) (reach : Reach σ ν) (v : Variable ν) (index : Nat) :
    Search σ ν (Option (Variable ν)) := do
  let l ← engine.childListing v
  let (rows, _) ← reach.rows l index 1
  return rows.head?

/-- The text of a child that is not there. -/
def missingChildText : TextKind → Nat → String
  | .value, index => Variable.failureText s!"Child {index} not found."
  | .stringView, _ => ""

/-- The text of a variable. -/
def textWith (engine : Engine σ ν) (reach : Reach σ ν) (kind : TextKind) :
    Variable ν → Search σ ν String
  | .debugger handle => do
    return engine.debugger.text (← get).target kind handle
  | .failure _ message =>
    return match kind with
      | .value => message
      | .stringView => ""
  | .renamed inner .. => engine.textWith reach kind inner
  | .ruled inner => do
    if ← engine.isRuled inner then
      engine.ruleText kind (engine.textWith reach kind inner) inner
    else engine.textWith reach kind inner
  | .asChild inner index => do
    match ← engine.child? reach inner index with
    | some child => reach.text kind child
    | none => return missingChildText kind index
  | .more .. =>
    return match kind with
      | .value => " "
      | .stringView => ""
  | .synthetic owner scope rule text =>
    match kind with
    | .value => return text
    | .stringView => do
      let plain := engine.textWith reach .stringView owner
      match ← engine.format .stringView plain rule.stringView owner scope with
      | .ok text => return text
      | .error _ => plain

end Engine

end WatchView
