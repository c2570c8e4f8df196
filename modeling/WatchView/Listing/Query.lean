import WatchView.Listing.Array
import WatchView.Listing.Custom
import WatchView.Listing.Group
import WatchView.Listing.IndexList
import WatchView.Listing.Item
import WatchView.Listing.Nested
import WatchView.Listing.Nodes
import WatchView.Listing.Page
/-!
# Asking a listing

A listing is asked for the number of its children, for the children in a
window, and whether all of them can be had. Each answer comes with the
listing as it is afterwards.
-/

namespace WatchView

namespace Listing

variable {σ ν α β κ : Type}

/-- An answer of one kind of listing as an answer of a listing. -/
def answering (wrap : κ → Listing ν) (answer : α → β) (act : Search σ ν (α × κ)) :
    Search σ ν (β × Listing ν) := do
  let (a, l) ← act
  return (answer a, wrap l)

/-- The number of children. -/
def countWith (engine : Engine σ ν) (reach : Reach σ ν) :
    Listing ν → Search σ ν (Nat × Listing ν)
  | fixed rows => return (rows.length, fixed rows)
  | item l => answering item Standing.count (l.settled engine.evaluator)
  | indexList l => answering indexList Standing.count (l.settled engine.evaluator)
  | array l => answering array Standing.count (l.settled engine.evaluator)
  | nodes l =>
    answering nodes Standing.count
      (.ofTarget (l.settled engine.evaluator engine.options reach.bound))
  | custom l => answering custom Standing.count (l.settled engine reach.bound)
  | synthetic l => answering synthetic Standing.count (l.settled engine reach)
  | inlined c rule standing inner => do
    let (standing, inner) ← settledInlined engine reach c rule standing inner
    return (standing.count, inlined c rule (some standing) inner)
  | pointee c pointer failure inner => do
    match ← resolvedPointee engine c pointer failure inner with
    | .error row => return (1, pointee c pointer (some row) inner)
    | .ok l =>
      let (n, l) ← reach.count l
      return (n, pointee c pointer failure (some l))
  | unsupported row => return (1, unsupported row)
  | group owner members hideRawView limit => do
    let (n, members) ← groupCount reach hideRawView members
    return (n, group owner members hideRawView limit)
  | page id offset size => do
    return (← pageCount size (← remaining reach id offset size), page id offset size)
  | registers n inner => return (n, registers n inner)
  | ofChild parent index inner => do
    let l ← resolvedChild engine reach parent index inner
    let (n, l) ← reach.count l
    return (n, ofChild parent index (some l))

/-- The children in a window. -/
def rowsWith (engine : Engine σ ν) (reach : Reach σ ν) (start count : Nat) :
    Listing ν → Search σ ν (List (Variable ν) × Listing ν)
  | fixed rows => return (clip start count rows, fixed rows)
  | item l => answering item id (l.rows engine.evaluator start count)
  | indexList l => answering indexList id (l.rows engine.evaluator start count)
  | array l => answering array id (l.rows engine.evaluator start count)
  | nodes l =>
    answering nodes id
      (.ofTarget (l.rows engine.evaluator engine.options reach.bound start count))
  | custom l => answering custom id (l.rows engine reach.bound start count)
  | synthetic l => answering synthetic id (l.rows engine reach start count)
  | inlined c rule standing inner => do
    let (standing, inner) ← settledInlined engine reach c rule standing inner
    match standing, inner with
    | .failed row, _ => return (clip start count [row], inlined c rule (some standing) inner)
    | .counted _, none => return ([], inlined c rule (some standing) inner)
    | .counted _, some l =>
      let (rows, l) ← reach.rows l start count
      return (rows, inlined c rule (some standing) (some l))
  | pointee c pointer failure inner => do
    match ← resolvedPointee engine c pointer failure inner with
    | .error row => return (clip start count [row], pointee c pointer (some row) inner)
    | .ok l =>
      let (rows, l) ← reach.rows l start count
      return (rows, pointee c pointer failure (some l))
  | unsupported row => return (clip start count [row], unsupported row)
  | group owner members hideRawView limit => do
    let (rows, members) ← groupRows engine reach owner hideRawView members start count
    return (rows, group owner members hideRawView limit)
  | page id offset size => do
    return (← pageRows reach id offset size start count, page id offset size)
  | registers n inner => do
    let (rows, inner) ← reach.rows inner start count
    return (rows, registers n inner)
  | ofChild parent index inner => do
    let l ← resolvedChild engine reach parent index inner
    let (rows, l) ← reach.rows l start count
    return (rows, ofChild parent index (some l))

/-- Whether all children can be had. -/
def isSoundWith (engine : Engine σ ν) (reach : Reach σ ν) :
    Listing ν → Search σ ν (Bool × Listing ν)
  | fixed rows => return (true, fixed rows)
  | item l => answering item Standing.isSound (l.settled engine.evaluator)
  | indexList l => answering indexList Standing.isSound (l.settled engine.evaluator)
  | array l => answering array Standing.isSound (l.settled engine.evaluator)
  | nodes l =>
    answering nodes Standing.isSound
      (.ofTarget (l.settled engine.evaluator engine.options reach.bound))
  | custom l => do
    let (_, l) ← l.settled engine reach.bound
    return (l.isSound, custom l)
  | synthetic l => answering synthetic Standing.isSound (l.settled engine reach)
  | inlined c rule standing inner => do
    let (standing, inner) ← settledInlined engine reach c rule standing inner
    return (standing.isSound, inlined c rule (some standing) inner)
  | pointee c pointer failure inner => do
    match ← resolvedPointee engine c pointer failure inner with
    | .error row => return (false, pointee c pointer (some row) inner)
    | .ok l => return (true, pointee c pointer failure (some l))
  | unsupported row => return (true, unsupported row)
  | group owner members hideRawView limit => do
    let (sound, members) ← allSound reach members
    return (sound, group owner members hideRawView limit)
  | page id offset size => do
    return (← withKept id reach.isSound, page id offset size)
  | registers n inner => do
    let (sound, inner) ← reach.isSound inner
    return (sound, registers n inner)
  | ofChild parent index inner => return (true, ofChild parent index inner)

end Listing

end WatchView
