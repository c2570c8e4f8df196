/-!
# Bindings

A finite map from names to values, as a list of pairs. Binding a name takes
the pair it had out of the list, so every name stands there once.
-/

namespace WatchView

/-- A finite map from names. -/
structure Bindings (α : Type) where
  /-- The names with their values. -/
  pairs : List (String × α) := []
deriving Repr, Inhabited

namespace Bindings

variable {α : Type}

/-- No bindings. -/
def empty : Bindings α := {}

/-- The value bound to a name. -/
def get? (b : Bindings α) (name : String) : Option α :=
  (b.pairs.find? fun p => p.1 == name).map Prod.snd

/-- Whether a name is bound. -/
def contains (b : Bindings α) (name : String) : Bool := (b.get? name).isSome

/-- Bind a name to a value in place of what it was bound to. -/
def bind (b : Bindings α) (name : String) (value : α) : Bindings α :=
  ⟨(name, value) :: b.pairs.filter fun p => p.1 != name⟩

/-- The number of names bound. -/
def size (b : Bindings α) : Nat := b.pairs.length

/-- The pairs in the order of their names, compared by code points. -/
def sorted (b : Bindings α) : List (String × α) :=
  b.pairs.mergeSort fun p q => !decide (q.1 < p.1)

/-- The names in order. -/
def sortedNames (b : Bindings α) : List String := b.sorted.map Prod.fst

/-- A name just bound has the value. -/
@[simp] theorem get?_bind_self (b : Bindings α) (name : String) (value : α) :
    (b.bind name value).get? name = some value := by
  simp [get?, bind]

/-- Binding a name leaves the others as they were. -/
theorem get?_bind_of_ne (b : Bindings α) {name other : String} (value : α) (h : other ≠ name) :
    (b.bind name value).get? other = b.get? other := by
  have hne : (name == other) = false := by simp [Ne.symm h]
  simp only [get?, bind, List.find?_cons, hne]
  congr 1
  induction b.pairs with
  | nil => rfl
  | cons p ps ih =>
    by_cases hp : p.1 = name
    · simp [hp, ih, Ne.symm h]
    · simp [hp, List.find?_cons, ih]

end Bindings

end WatchView
