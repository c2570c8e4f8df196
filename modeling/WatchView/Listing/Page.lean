import WatchView.Listing.Reach
/-!
# Pages

A page shows a number of children of a listing from an offset, and behind
them, if there are more, a row that leads to the next page. All pages of a
listing share it. Before the listing is counted, its limit is raised so far
that it looks for one child past the page.
-/

namespace WatchView

variable {σ ν α : Type}

/-- Work on a listing kept in the session. -/
def withKept (id : Nat) (act : Listing ν → Search σ ν (α × Listing ν)) : Search σ ν α := do
  let (a, l) ← act ((← get).listings[id]?.getD .empty)
  modify fun s => { s with listings := s.listings.setIfInBounds id l }
  return a

namespace Listing

/-- A listing that looks for so many children at least. -/
def raisedTo (limit : Nat) (l : Listing ν) : Listing ν :=
  if l.limit < limit then l.setLimit limit else l

/-- The number of children from the offset of a page. -/
def remaining (reach : Reach σ ν) (id offset size : Nat) : Search σ ν Nat := do
  let limit ← wordSum (← wordSum offset size) 1
  let n ← withKept id fun l => reach.count (l.raisedTo limit)
  return n - offset

/-- The number of rows of a page with so many children left. -/
def pageCount (size left : Nat) : Search σ ν Nat :=
  if size < left then wordSum size 1 else pure left

/-- The rows of a page in a window. -/
def pageRows (reach : Reach σ ν) (id offset size start count : Nat) :
    Search σ ν (List (Variable ν)) := do
  let left ← remaining reach id offset size
  let own := min left size
  let stop := min (windowEnd start count) (← pageCount size left)
  if stop ≤ start then return []
  else
    let rows ←
      if start < own then do
        let first ← wordSum offset start
        withKept id fun l => reach.rows l first (min stop own - start)
      else pure []
    if own < stop then return rows ++ [.more id (← wordSum offset size) size]
    else return rows

end Listing

end WatchView
