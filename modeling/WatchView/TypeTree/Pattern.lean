import WatchView.TypeTree.Basic
/-!
# Patterns of type names

A pattern covers a type name position for position: same base name, and
qualifiers, template arguments and extent that are covered. Three things loosen
this. A wildcard covers anything; a wildcard as the last template argument
takes all further arguments; an open extent covers any extent.

Parameters of function types are not compared.
-/

namespace WatchView

/-- Whether an extent of a pattern covers the extent of a type. -/
def Extent.covers : Extent → Extent → Bool
  | .unbounded, _ => true
  | .elements n, e => e == .elements n

namespace TypeTree

/-- Whether the extent of a pattern, present or not, covers that of a type. -/
def extentCovers : Option Extent → Option Extent → Bool
  | none, none => true
  | some p, some e => p.covers e
  | _, _ => false

/-- Whether a pattern has as many template arguments as the type, or fewer
with a wildcard at the end. -/
def arityCovers (pattern actual : List TypeTree) : Bool :=
  pattern.length == actual.length ||
    (pattern.length < actual.length && pattern.getLast?.any isWildcard)

mutual

/-- Whether a pattern covers a type name. -/
def covers : TypeTree → TypeTree → Bool
  | wildcard, _ => true
  | named _ base qualifiers args _ extent, actual =>
    qualifiers.length == actual.qualifiers.length && base == actual.baseName &&
      coversEach qualifiers actual.qualifiers &&
      arityCovers args actual.args && coversEach args actual.args &&
      extentCovers extent actual.extent

/-- Whether patterns cover type names place by place, as far as both lists
go. -/
def coversEach : List TypeTree → List TypeTree → Bool
  | pattern :: patterns, actual :: actuals =>
    covers pattern actual && coversEach patterns actuals
  | _, _ => true

end

end TypeTree

end WatchView
