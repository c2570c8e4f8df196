/-!
# Work within a bound

Work on a state that always comes to an end is a `StateM`. Following
pointers or rules may go on for ever, as around a cycle of nodes. Such work
is given a bound, and has no outcome if it does not end within it.

Numbers of rows are words. Work that comes to a sum which is no word is given
up, whatever the bound.
-/

namespace WatchView

/-- Why work has no outcome. -/
inductive Stop where
  /-- It does not end within the bound. -/
  | bound
  /-- A sum is too large for a word. -/
  | overflow
deriving Repr, DecidableEq, Inhabited

/-- Work on a state within a bound. -/
abbrev Bounded (σ : Type) := StateT σ (Except Stop)

namespace Bounded

variable {σ α : Type}

/-- Work that comes to an end has an outcome within every bound. -/
def ofTotal (act : StateM σ α) : Bounded σ α := fun s => .ok (act s)

/-- Work that does not end within the bound. -/
def unfinished : Bounded σ α := fun _ => .error .bound

/-- Work that is given up. -/
def overflow : Bounded σ α := fun _ => .error .overflow

instance : MonadLift (StateM σ) (Bounded σ) := ⟨ofTotal⟩

end Bounded

end WatchView
