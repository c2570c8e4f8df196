/-!
# Type names as trees

A type name such as `std::map<K, V>*` is held as a tree: the qualifiers in
front of the last segment, the base name with its pointer and reference
markers, the template arguments, the extent of an array, the parameters of
a function type. Each tree keeps the text it was read from, its full name.

The wildcard `*` stands for any type. It is a tree of its own, and rules use
it as a template argument or as a whole pattern.
-/

namespace WatchView

/-- The extent of an array type: left open, or a number of elements. -/
inductive Extent where
  | unbounded
  | elements (count : Nat)
deriving Repr, DecidableEq, Inhabited

namespace Extent

/-- The extent as an integer, `-1` if it is left open. -/
def toInt : Extent → Int
  | unbounded => -1
  | elements count => count

end Extent

/-- A type name read as a tree. -/
inductive TypeTree where
  /-- Any type. -/
  | wildcard
  /-- A name written out. -/
  | named (fullName baseName : String) (qualifiers args : List TypeTree)
      (parameters : Option (List TypeTree)) (extent : Option Extent)
deriving Repr, Inhabited

namespace TypeTree

/-- The text the tree was read from. -/
def fullName : TypeTree → String
  | wildcard => "*"
  | named full .. => full

/-- The unqualified name without template arguments, markers included. -/
def baseName : TypeTree → String
  | wildcard => "*"
  | named _ base .. => base

/-- The enclosing namespaces and classes, outermost first. -/
def qualifiers : TypeTree → List TypeTree
  | wildcard => []
  | named _ _ qualifiers .. => qualifiers

/-- The template arguments; a number is a name made of digits. -/
def args : TypeTree → List TypeTree
  | wildcard => []
  | named _ _ _ args .. => args

/-- The parameter types of a function type. -/
def parameters : TypeTree → Option (List TypeTree)
  | wildcard => none
  | named _ _ _ _ parameters _ => parameters

/-- The extent of an array type. -/
def extent : TypeTree → Option Extent
  | wildcard => none
  | named _ _ _ _ _ extent => extent

/-- The extents as integers, for an array type. -/
def dimensions (t : TypeTree) : Option (List Int) := t.extent.map fun e => [e.toInt]

/-- Whether the tree stands for any type. -/
def isWildcard : TypeTree → Bool
  | wildcard => true
  | named .. => false

/-- Whether the tree is an array type. -/
def isArray (t : TypeTree) : Bool := t.extent.isSome

/-- Whether the tree is a function type. -/
def isFunction (t : TypeTree) : Bool := t.parameters.isSome

/-- A name that is only a base name. -/
def ofBaseName (base : String) : TypeTree := named base base [] [] none none

end TypeTree

/-- Why a text is no type name. -/
inductive TypeNameError where
  /-- The text is blank. -/
  | empty
  /-- A character does not fit the grammar where it stands. -/
  | unexpectedChar (char : Char) (offset : Nat) (text : String)
  /-- The text ends inside a type name. -/
  | unexpectedEnd (text : String)
  /-- A type name is complete before the text ends. -/
  | trailing (text rest : String)
deriving Repr, DecidableEq, Inhabited

namespace TypeNameError

/-- The error in words. -/
def message : TypeNameError → String
  | empty => "empty type name"
  | unexpectedChar char offset text =>
    s!"unexpected character '{char}' at offset {offset} in '{text}'"
  | unexpectedEnd text => s!"unexpected end of type name '{text}'"
  | trailing text rest => s!"unparsed input '{rest}' after type name in '{text}'"

end TypeNameError

end WatchView
