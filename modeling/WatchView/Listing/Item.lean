import WatchView.Listing.Element
/-!
# Single items

An item is one row: an expression under a name. It is counted without being
evaluated; the expression is evaluated when its row is asked for, and a
failure is shown in the row.
-/

namespace WatchView

namespace ItemListing

variable {σ ν : Type}

/-- The listing, settled. -/
def settled (ev : Evaluator σ ν) (l : ItemListing ν) : StateM σ (Standing ν × ItemListing ν) := do
  match l.standing with
  | some standing => pure (standing, l)
  | none =>
    let (standing, l) ← Standing.settle l.rule.guard (l.context.applies ev l.rule.guard)
      (fun l => pure (.ok 1, l)) l
    pure (standing, { l with standing := some standing })

/-- The row of the item, made if it was not kept. -/
def theRow (ev : Evaluator σ ν) (l : ItemListing ν) : StateM σ (Variable ν × ItemListing ν) := do
  match l.row with
  | some row => pure (row, l)
  | none =>
    let row ← l.context.row ev l.rule.value l.rule.name
    pure (row, { l with row := some row })

/-- The rows in a window. A window without the item does not evaluate it. -/
def rows (ev : Evaluator σ ν) (l : ItemListing ν) (start count : Nat) :
    StateM σ (List (Variable ν) × ItemListing ν) := do
  let (standing, l) ← l.settled ev
  match standing with
  | .failed row => pure (clip start count [row], l)
  | .counted n =>
    if count = 0 ∨ n ≤ start then pure ([], l)
    else
      let (row, l) ← l.theRow ev
      pure (clip start count [row], l)

end ItemListing

end WatchView
