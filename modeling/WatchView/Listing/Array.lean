import WatchView.Listing.Element
import WatchView.MemberPath
/-!
# Arrays

The rows of an array are the elements behind a pointer: the first one that
is not blank and whose condition holds. It is chosen once. A pointer that is
a member path is indexed as it stands, so that its elements are member paths
too; any other is put in parentheses.
-/

namespace WatchView

namespace ArrayListing

variable {σ ν : Type}

/-- The expression of an element. -/
def elementOf (pointer : String) (index : Nat) : String :=
  if MemberPath.isAccess pointer then Text.trimmed pointer ++ positionName index
  else "(" ++ pointer ++ ")" ++ positionName index

/-- The first pointer whose condition holds. -/
def chosenPointer (ev : Evaluator σ ν) (c : Context ν) :
    List ConditionalText → StateM σ (Except ExpandError String)
  | [] => pure (.error (.missing "ValuePointer"))
  | pointer :: pointers => do
    if Text.isBlankText pointer.value then chosenPointer ev c pointers
    else
      match ← c.holds ev pointer.condition with
      | .error e => pure (.error (.evaluation e))
      | .ok true => pure (.ok pointer.value)
      | .ok false => chosenPointer ev c pointers

/-- The declared size, with the pointer chosen first. -/
def count (ev : Evaluator σ ν) (l : ArrayListing ν) :
    StateM σ (Except ExpandError Nat × ArrayListing ν) := do
  match ← chosenPointer ev l.context l.rule.valuePointers with
  | .error e => pure (.error e, l)
  | .ok pointer =>
    let size ← ev.declaredSize l.context.owner l.context.scope l.rule.sizes
    pure (size, { l with pointer := some pointer })

/-- The listing, settled. -/
def settled (ev : Evaluator σ ν) (l : ArrayListing ν) :
    StateM σ (Standing ν × ArrayListing ν) := do
  match l.standing with
  | some standing => pure (standing, l)
  | none =>
    let (standing, l) ← Standing.settle l.rule.guard (l.context.applies ev l.rule.guard)
      (fun l => l.count ev) l
    pure (standing, { l with standing := some standing })

/-- The rows in a window. -/
def rows (ev : Evaluator σ ν) (l : ArrayListing ν) (start count : Nat) :
    StateM σ (List (Variable ν) × ArrayListing ν) := do
  let (standing, l) ← l.settled ev
  match standing, l.pointer with
  | .failed row, _ => pure (clip start count [row], l)
  | .counted _, none => pure ([], l)
  | .counted n, some pointer =>
    let (rows, kept) ← l.kept.rowsAt
      (fun index => l.context.row ev (elementOf pointer index) (positionName index))
      (windowOf n start count)
    pure (rows, { l with kept })

end ArrayListing

end WatchView
