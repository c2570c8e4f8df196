import WatchView.Listing.Reach
/-!
# Groups

A group lists the children of its members one after the other. The row of
the raw value comes last. It is hidden if the rule asks for that, unless a
member failed.
-/

namespace WatchView

namespace Listing

variable {σ ν : Type}

/-- The number of children of all members. -/
def countAll (reach : Reach σ ν) :
    List (Listing ν) → Search σ ν (Nat × List (Listing ν))
  | [] => return (0, [])
  | l :: ls => do
    let (n, l) ← reach.count l
    let (total, ls) ← countAll reach ls
    return (n + total, l :: ls)

/-- Whether all members are sound; those behind the first that is not are
not asked. -/
def allSound (reach : Reach σ ν) :
    List (Listing ν) → Search σ ν (Bool × List (Listing ν))
  | [] => return (true, [])
  | l :: ls => do
    let (sound, l) ← reach.isSound l
    if sound then
      let (sound, ls) ← allSound reach ls
      return (sound, l :: ls)
    else return (false, l :: ls)

/-- Whether the raw value is shown. -/
def showsRaw (reach : Reach σ ν) (hideRawView : Bool) (members : List (Listing ν)) :
    Search σ ν (Bool × List (Listing ν)) := do
  if hideRawView then
    let (sound, members) ← allSound reach members
    return (!sound, members)
  else return (true, members)

/-- The number of rows of a group. -/
def groupCount (reach : Reach σ ν) (hideRawView : Bool) (members : List (Listing ν)) :
    Search σ ν (Nat × List (Listing ν)) := do
  let (n, members) ← countAll reach members
  let (raw, members) ← showsRaw reach hideRawView members
  return (if raw then n + 1 else n, members)

/-- The rows of members between two positions, where the first member starts
at an offset. The last answer is the offset behind the members that were
looked at. -/
def rowsBetween (reach : Reach σ ν) (start stop : Nat) :
    Nat → List (Listing ν) → Search σ ν (List (Variable ν) × List (Listing ν) × Nat)
  | offset, [] => return ([], [], offset)
  | offset, l :: ls => do
    if stop ≤ offset then return ([], l :: ls, offset)
    else
      let (n, l) ← reach.count l
      let low := max start offset
      let high := min stop (offset + n)
      let (rows, l) ←
        if low < high then reach.rows l (low - offset) (high - low) else pure ([], l)
      let (more, ls, last) ← rowsBetween reach start stop (offset + n) ls
      return (rows ++ more, l :: ls, last)

/-- The rows of a group in a window. -/
def groupRows (engine : Engine σ ν) (reach : Reach σ ν) (owner : Variable ν)
    (hideRawView : Bool) (members : List (Listing ν)) (start count : Nat) :
    Search σ ν (List (Variable ν) × List (Listing ν)) := do
  let stop := windowEnd start count
  let (rows, members, last) ← rowsBetween reach start stop 0 members
  if start ≤ last && last < stop then
    let (raw, members) ← showsRaw reach hideRawView members
    if raw then return (rows ++ [← engine.rawView owner], members)
    else return (rows, members)
  else return (rows, members)

end Listing

end WatchView
