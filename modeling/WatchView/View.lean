import WatchView.Listing.Query
/-!
# The watch view

The answers of the engine on variables and listings, each within a bound on
how far an answer may lead to others. A larger bound never changes an answer
that was found.
-/

namespace WatchView

namespace Engine

variable {σ ν : Type}

/-- What can be asked within a bound. -/
def reach (engine : Engine σ ν) : Nat → Reach σ ν
  | 0 => .nowhere
  | bound + 1 =>
    { bound
      text := fun kind v => engine.textWith (engine.reach bound) kind v
      count := fun l => l.countWith engine (engine.reach bound)
      rows := fun l start count => l.rowsWith engine (engine.reach bound) start count
      isSound := fun l => l.isSoundWith engine (engine.reach bound) }

/-- The text of a variable. -/
def text (engine : Engine σ ν) (bound : Nat) (kind : TextKind) (v : Variable ν) :
    Search σ ν String :=
  (engine.reach bound).text kind v

/-- The text a variable has by its rule. -/
def display (engine : Engine σ ν) (bound : Nat) (kind : TextKind) (v : Variable ν) :
    Search σ ν String :=
  engine.ruleText kind (engine.text bound kind v) v

/-- The number of children of a listing. -/
def count (engine : Engine σ ν) (bound : Nat) (l : Listing ν) : Search σ ν (Nat × Listing ν) :=
  (engine.reach bound).count l

/-- The children of a listing in a window. -/
def rows (engine : Engine σ ν) (bound : Nat) (l : Listing ν) (start count : Nat) :
    Search σ ν (List (Variable ν) × Listing ν) :=
  (engine.reach bound).rows l start count

/-- Whether all children of a listing can be had. -/
def isSound (engine : Engine σ ν) (bound : Nat) (l : Listing ν) :
    Search σ ν (Bool × Listing ν) :=
  (engine.reach bound).isSound l

/-- The engine in a line: its strategy, the number of kept answers and the
number of texts being formatted. -/
def describe (engine : Engine σ ν) : Run σ ν String := do
  let s ← get
  return "Natvis \x7b strategy: " ++ engine.options.strategy.label ++ ", cached_types: " ++
    toString s.book.answers.size ++ ", format_depth: " ++ toString s.depth ++ " \x7d"

end Engine

end WatchView
