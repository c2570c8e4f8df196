import WatchView.Session
/-!
# Reach

A listing may pass on the children of another one, and the text of a row may
be that of a child. Such an answer is found with the answers one level
further on. `Reach` holds what can be asked there; the listings take it as a
parameter, so each is described by itself.
-/

namespace WatchView

/-- What can be asked one level further on. -/
structure Reach (σ ν : Type) where
  /-- The bound on walks and programs. -/
  bound : Nat
  /-- The text of a variable. -/
  text : TextKind → Variable ν → Search σ ν String
  /-- The number of children. -/
  count : Listing ν → Search σ ν (Nat × Listing ν)
  /-- The children in a window. -/
  rows : Listing ν → Nat → Nat → Search σ ν (List (Variable ν) × Listing ν)
  /-- Whether all children can be had. -/
  isSound : Listing ν → Search σ ν (Bool × Listing ν)

namespace Reach

variable {σ ν : Type}

/-- Nothing can be reached. -/
def nowhere : Reach σ ν where
  bound := 0
  text _ _ := Bounded.unfinished
  count _ := Bounded.unfinished
  rows _ _ _ := Bounded.unfinished
  isSound _ := Bounded.unfinished

end Reach

end WatchView
