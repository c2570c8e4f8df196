import WatchView.Evaluation.Fill
import WatchView.Listing.Element
import WatchView.Listing.Walk
/-!
# Linked lists and trees

The rows of a linked list or tree are the nodes a walk visits, each shown as
the rule says. Without a declared size, as many nodes are looked for as the
limit allows, and counted. With one, there are so many rows, and nodes are
looked for when a window asks for them; positions without a node show how
many were found.

A walk that fails has ended. The nodes before the failure stand, and the
failure is a row behind them.
-/

namespace WatchView

namespace NodeListing

variable {σ ν : Type}

/-- The expression of the value itself. -/
def thisName : String := "this"

/-- The names and texts of the parts that may not be blank. -/
def requiredParts (rule : NodeRule) : List (String × String) :=
  [("HeadPointer", rule.head)] ++
  (match rule.links with
    | .list next => [("NextPointer", next)]
    | .tree left right => [("LeftPointer", left), ("RightPointer", right)]) ++
  [("ValueNode", (rule.valueNode.map ValueNode.value).getD "")]

/-- The first part that is blank. -/
def missingPart? (rule : NodeRule) : Option String :=
  ((requiredParts rule).find? fun part => Text.isBlankText part.2).map Prod.fst

/-- The number of nodes to look for. -/
def effectiveLimit (options : Options) (l : NodeListing ν) : Nat :=
  if l.limit = 0 then options.get l.rule.links.limitProperty else l.limit

/-- The row of the failure that ends a walk. -/
def obstacleRow (guard : Guard) (e : EvalError) : Variable ν :=
  if guard.optional then .warning (Variable.warningText e.message)
  else .error (Variable.failureText e.message)

/-- The number of rows without a declared size. -/
def found (l : NodeListing ν) : Nat := l.nodes.size + if l.obstacle.isSome then 1 else 0

/-- Visit up to so many nodes more. -/
def walkOn (ev : Evaluator σ ν) (bound : Nat) :
    Nat → NodeListing ν → Bounded σ (NodeListing ν)
  | 0, l => pure l
  | more + 1, l =>
    match l.walk with
    | none => pure l
    | some walk => do
      if l.exhausted then pure l
      else
        let (result, walk) ← walk.next ev l.context.scope bound l.rule.links
        let l := { l with walk := some walk }
        match result with
        | .ok (some node) => walkOn ev bound more { l with nodes := l.nodes.push node }
        | .ok none => pure { l with exhausted := true }
        | .error e =>
          pure { l with exhausted := true, obstacle := some (obstacleRow l.rule.guard e) }

/-- Visit nodes until so many are known or the walk ends. -/
def walkTo (ev : Evaluator σ ν) (bound count : Nat) (l : NodeListing ν) :
    Bounded σ (NodeListing ν) :=
  walkOn ev bound (count - l.nodes.size) l

/-- The head or root. -/
def head (ev : Evaluator σ ν) (l : NodeListing ν) :
    StateM σ (Except EvalError (Variable ν)) := do
  let pointer := Text.trimmed l.rule.head
  if pointer == thisName then pure (.ok l.context.owner)
  else Walk.follow ev l.context.scope l.context.owner pointer

/-- Find the head, then evaluate the size or visit nodes up to the limit. -/
def count (ev : Evaluator σ ν) (options : Options) (bound : Nat) (l : NodeListing ν) :
    Bounded σ (Except ExpandError Nat × NodeListing ν) := do
  match missingPart? l.rule with
  | some part => pure (.error (.missing part), l)
  | none =>
    match ← l.head ev with
    | .error e => pure (.error (.evaluation e), l)
    | .ok head =>
      let l := { l with walk := some (.start head) }
      match l.rule.size.filter fun size => !Text.isBlankText size with
      | some size =>
        match ← ev.declaredSize l.context.owner l.context.scope [{ value := size }] with
        | .error e => pure (.error e, l)
        | .ok n => pure (.ok n, { l with size := some n })
      | none =>
        let l ← l.walkTo ev bound (l.effectiveLimit options)
        pure (.ok l.found, l)

/-- Count again after the limit went up. -/
def recounted (ev : Evaluator σ ν) (options : Options) (bound : Nat) (standing : Standing ν)
    (l : NodeListing ν) : Bounded σ (Standing ν × NodeListing ν) := do
  if standing.isSound && l.size.isNone && l.walk.isSome then
    let l ← l.walkTo ev bound (l.effectiveLimit options)
    pure (.counted l.found, l)
  else pure (standing, l)

/-- The listing, settled. -/
def settled (ev : Evaluator σ ν) (options : Options) (bound : Nat) (l : NodeListing ν) :
    Bounded σ (Standing ν × NodeListing ν) := do
  let (standing, l) ←
    match l.standing with
    | none =>
      Standing.settle l.rule.guard (l.context.applies ev l.rule.guard)
        (fun l => l.count ev options bound) l
    | some standing =>
      if l.stale then recounted ev options bound standing { l with stale := false }
      else pure (standing, l)
  pure (standing, { l with standing := some standing })

/-! ## Rows -/

/-- The name of a node's row. -/
def nodeName (ev : Evaluator σ ν) (scope : Scope (Variable ν)) (name : Option String)
    (node : Variable ν) (index : Nat) : StateM σ String := do
  match name.filter fun name => !Text.isBlankText name with
  | none => pure (positionName index)
  | some template =>
    match ← ev.nameText template node scope with
    | .ok name => pure name
    | .error _ => pure (positionName index)

/-- The row of a node. -/
def nodeRow (ev : Evaluator σ ν) (c : Context ν) (value : Option ValueNode)
    (node : Variable ν) (index : Nat) : StateM σ (Variable ν) := do
  match value with
  | none => pure (.renamed node (positionName index) none)
  | some value =>
    let name ← nodeName ev c.scope value.name node index
    if Text.trimmed value.value == thisName then
      return (Variable.renamed node name none).decorated ev.debugger.toInspector (← get)
    else ({ c with owner := node } : Context ν).row ev value.value name

/-- The row at a position without a node: the failure that ended the walk,
and behind it how many nodes there are. -/
def rowWithoutNode (l : NodeListing ν) (index : Nat) : Variable ν :=
  match if index = l.nodes.size then l.obstacle else none, l.size with
  | some row, _ => row
  | none, some size =>
    .error s!"Size declared as {size} but only {l.nodes.size} item(s) found."
  | none, none => .error s!"Item {index} is out of bound."

/-- The rows at given positions; those of nodes are kept. -/
def rowsAt (ev : Evaluator σ ν) (l : NodeListing ν) :
    List Nat → Kept ν → StateM σ (List (Variable ν) × Kept ν)
  | [], kept => pure ([], kept)
  | i :: is, kept => do
    match kept.row? i, l.nodes[i]? with
    | some row, _ =>
      let (rows, kept) ← rowsAt ev l is kept
      pure (row :: rows, kept)
    | none, some node =>
      let row ← nodeRow ev l.context l.rule.valueNode node i
      let (rows, kept) ← rowsAt ev l is ((i, row) :: kept)
      pure (row :: rows, kept)
    | none, none =>
      let (rows, kept) ← rowsAt ev l is kept
      pure (l.rowWithoutNode i :: rows, kept)

/-- The rows in a window. -/
def rows (ev : Evaluator σ ν) (options : Options) (bound : Nat) (l : NodeListing ν)
    (start count : Nat) : Bounded σ (List (Variable ν) × NodeListing ν) := do
  let (standing, l) ← l.settled ev options bound
  match standing with
  | .failed row => pure (clip start count [row], l)
  | .counted n =>
    let l ← l.walkTo ev bound (min (windowEnd start count) n)
    let (rows, kept) ← l.rowsAt ev (windowOf n start count) l.kept
    pure (rows, { l with kept })

end NodeListing

end WatchView
