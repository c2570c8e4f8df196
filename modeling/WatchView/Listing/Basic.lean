import WatchView.Listing.Window
import WatchView.Program.Basic
/-!
# Listings

A listing is the children of a variable, counted when someone asks for the
number and made when someone asks for a window of them. It keeps what it has
found out, so asking changes it; the functions on listings return the
listing as it is afterwards.

Most kinds stand for one element of an expansion. Others join the elements
of an expansion, show a page of another listing, or pass on the children of
another variable. A listing that several pages share is kept in the session
under an identifier.

This file defines the data of each kind.
-/

namespace WatchView

variable {ν : Type}

/-- What is known of the number of children. -/
inductive Standing (ν : Type) where
  /-- There are so many. -/
  | counted (n : Nat)
  /-- They cannot be had; one row says why. -/
  | failed (row : Variable ν)

namespace Standing

/-- The number of rows. -/
def count : Standing ν → Nat
  | counted n => n
  | failed _ => 1

/-- Whether the children can be had. -/
def isSound : Standing ν → Bool
  | counted _ => true
  | failed _ => false

end Standing

/-- The variable a rule is applied to and the scope of its expressions. -/
structure Context (ν : Type) where
  owner : Variable ν
  scope : Scope (Variable ν)

/-- Rows kept by position. -/
abbrev Kept (ν : Type) := List (Nat × Variable ν)

/-- The row kept at a position. -/
def Kept.row? (kept : Kept ν) (index : Nat) : Option (Variable ν) := kept.lookup index

/-- A single item. -/
structure ItemListing (ν : Type) where
  context : Context ν
  rule : ItemRule
  standing : Option (Standing ν) := none
  row : Option (Variable ν) := none

/-- An index list. -/
structure IndexListing (ν : Type) where
  context : Context ν
  rule : IndexListRule
  standing : Option (Standing ν) := none
  kept : Kept ν := []

/-- The elements of an array. -/
structure ArrayListing (ν : Type) where
  context : Context ν
  rule : ArrayRule
  standing : Option (Standing ν) := none
  /-- The pointer that applies. -/
  pointer : Option String := none
  kept : Kept ν := []

/-- Where a walk along pointers stands. -/
inductive Place (ν : Type) where
  /-- Before a node that was not visited yet. -/
  | before (node : Variable ν)
  /-- Behind a node that was. -/
  | behind (node : Variable ν)
  /-- Nowhere: what is left is on the stack. -/
  | nowhere

/-- A walk along the pointers of a linked list or tree. -/
structure Walk (ν : Type) where
  place : Place ν
  /-- The nodes of a tree whose left subtree is being visited, the last one
  first. -/
  stack : List (Variable ν) := []

/-- The property that limits the nodes looked for. -/
def Links.limitProperty : Links → Property
  | list _ => .linkedListLimit
  | tree .. => .treeLimit

/-- The nodes of a linked list or tree. -/
structure NodeListing (ν : Type) where
  context : Context ν
  rule : NodeRule
  standing : Option (Standing ν) := none
  walk : Option (Walk ν) := none
  /-- The nodes found so far. -/
  nodes : Array (Variable ν) := #[]
  /-- Whether the walk has ended. -/
  exhausted : Bool := false
  /-- The row of the failure that ended the walk. -/
  obstacle : Option (Variable ν) := none
  /-- The declared size. -/
  size : Option Nat := none
  kept : Kept ν := []
  /-- The number of nodes to look for; zero if it was not set. -/
  limit : Nat := 0
  /-- Whether the nodes are to be counted again. -/
  stale : Bool := false

/-- The program of a custom list while it runs. -/
structure ProgramRun (ν : Type) where
  /-- The program as far as it has come. -/
  program : Sequence
  /-- The scope of its expressions, with the variables of the list. -/
  scope : Scope (Variable ν)
  /-- The number of items that were to be shown so far. -/
  items : Nat := 0

/-- A custom list. -/
structure CustomListing (ν : Type) where
  context : Context ν
  rule : CustomListRule
  standing : Standing ν := .counted 0
  /-- Whether the standing is up to date. -/
  current : Bool := false
  /-- The program, once it has begun. -/
  run : Option (ProgramRun ν) := none
  /-- The declared size. -/
  size : Option Nat := none
  /-- The rows so far. -/
  shown : Array (Variable ν) := #[]
  /-- Whether an evaluation failed. -/
  failed : Bool := false
  /-- The row at declared positions without an item. -/
  shortfall : Option (Variable ν) := none
  /-- The number of items to run for; zero if it was not set. -/
  limit : Nat := 0

/-- A synthetic row. -/
structure SyntheticListing (ν : Type) where
  context : Context ν
  rule : SyntheticRule
  standing : Option (Standing ν) := none
  row : Option (Variable ν) := none

/-- The children of a variable. -/
inductive Listing (ν : Type) where
  /-- Rows that are at hand. -/
  | fixed (rows : List (Variable ν))
  | item (l : ItemListing ν)
  | indexList (l : IndexListing ν)
  | array (l : ArrayListing ν)
  | nodes (l : NodeListing ν)
  | custom (l : CustomListing ν)
  | synthetic (l : SyntheticListing ν)
  /-- The children of an expression's value. -/
  | inlined (context : Context ν) (rule : ExpandedItemRule) (standing : Option (Standing ν))
      (inner : Option (Listing ν))
  /-- The children of what a smart pointer points to. -/
  | pointee (context : Context ν) (pointer : SmartPointer) (failure : Option (Variable ν))
      (inner : Option (Listing ν))
  /-- One row that says an element is unknown. -/
  | unsupported (row : Variable ν)
  /-- The children of several listings in turn, and the row of the raw
  value. -/
  | group (owner : Variable ν) (members : List (Listing ν)) (hideRawView : Bool) (limit : Nat)
  /-- So many children from an offset of a listing kept in the session. -/
  | page (listing offset size : Nat)
  /-- A listing whose number of children is known beforehand. -/
  | registers (count : Nat) (inner : Listing ν)
  /-- The children of a child. -/
  | ofChild (parent : Variable ν) (index : Nat) (inner : Option (Listing ν))

namespace Listing

/-- No children. -/
def empty : Listing ν := fixed []

instance : Inhabited (Listing ν) := ⟨empty⟩

/-- The number of children the listing is to look for. -/
def limit : Listing ν → Nat
  | nodes l => l.limit
  | custom l => l.limit
  | group _ _ _ limit => limit
  | page _ _ size => size
  | _ => 0

/-- Set the number of children to look for. A listing that has counted
already counts again if the number went up. -/
def setLimit (limit : Nat) : Listing ν → Listing ν
  | nodes l =>
    nodes { l with limit := limit, stale := l.stale || (l.limit < limit && l.standing.isSome) }
  | custom l => custom { l with limit := limit, current := l.current && !(l.limit < limit) }
  | group owner members hideRawView _ => group owner members hideRawView limit
  | page listing offset _ => page listing offset limit
  | l => l

end Listing

end WatchView
