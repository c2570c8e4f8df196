import WatchView.Listing.Element
/-!
# Index lists

The rows of an index list come from an expression of the index, to which the
token `$i` is bound as an unsigned number. Of several expressions the first
that is not blank and whose condition holds for the index is taken.
-/

namespace WatchView

namespace IndexListing

variable {σ ν : Type}

/-- The token of the index. -/
def indexToken : String := "$i"

/-- The context of the expressions for an index. -/
def contextAt (l : IndexListing ν) (index : Nat) : Context ν :=
  { l.context with scope := l.context.scope.bindToken indexToken (toString index ++ "U") }

/-- The first expression whose condition holds. -/
def chosenNode (ev : Evaluator σ ν) (c : Context ν) :
    List ConditionalText → StateM σ (Except EvalError (Option String))
  | [] => pure (.ok none)
  | node :: nodes => do
    if Text.isBlankText node.value then chosenNode ev c nodes
    else
      match ← c.holds ev node.condition with
      | .error e => pure (.error e)
      | .ok true => pure (.ok (some node.value))
      | .ok false => chosenNode ev c nodes

/-- The row for an index. -/
def rowAt (ev : Evaluator σ ν) (l : IndexListing ν) (index : Nat) : StateM σ (Variable ν) := do
  let c := l.contextAt index
  let name := positionName index
  match ← chosenNode ev c l.rule.valueNodes with
  | .error e => pure (Evaluator.failureRow name e)
  | .ok none =>
    pure (.failure name (Variable.errorName ++ " " ++ (ExpandError.missing "ValueNode").message))
  | .ok (some expression) => c.row ev expression name

/-- The declared size; there has to be an expression that is not blank. -/
def count (ev : Evaluator σ ν) (l : IndexListing ν) : StateM σ (Except ExpandError Nat) := do
  if l.rule.valueNodes.all fun node => Text.isBlankText node.value then
    pure (.error (.missing "ValueNode"))
  else ev.declaredSize l.context.owner l.context.scope l.rule.sizes

/-- The listing, settled. -/
def settled (ev : Evaluator σ ν) (l : IndexListing ν) :
    StateM σ (Standing ν × IndexListing ν) := do
  match l.standing with
  | some standing => pure (standing, l)
  | none =>
    let (standing, l) ← Standing.settle l.rule.guard (l.context.applies ev l.rule.guard)
      (fun l => do return (← l.count ev, l)) l
    pure (standing, { l with standing := some standing })

/-- The rows in a window. -/
def rows (ev : Evaluator σ ν) (l : IndexListing ν) (start count : Nat) :
    StateM σ (List (Variable ν) × IndexListing ν) := do
  let (standing, l) ← l.settled ev
  match standing with
  | .failed row => pure (clip start count [row], l)
  | .counted n =>
    let (rows, kept) ← l.kept.rowsAt (l.rowAt ev) (windowOf n start count)
    pure (rows, { l with kept })

end IndexListing

end WatchView
