import WatchView.Catalogue.Basic
import WatchView.Options
/-!
# Choosing a rule

The rule for a variable is found along its type hierarchy: its own type
first, then the ancestors. The first type that some entry covers decides. A
type may carry an alias and its canonical name; the canonical name is tried
where the alias is read as a type name but covered by nothing. At most one
ancestor more than the bound allows is looked at.

Of the entries that cover the deciding type, the first in the order of
precedence is chosen, or with ranking, the first of the highest priority.
-/

namespace WatchView

/-- A kind of value with a built-in rule of its own. -/
inductive Tag where
  | sse
  | sse2
deriving Repr, DecidableEq, Inhabited

/-- The name the rule of a tag is looked up under. -/
def Tag.typeName : Tag → String
  | sse => "$SSE"
  | sse2 => "$SSE2"

/-- A type of a hierarchy: its name, which may be an alias, and the canonical
name. -/
structure TypeRecord where
  name : String
  canonicalName : String
deriving Repr, DecidableEq, Inhabited

/-- What the choice of a rule depends on. -/
structure Subject where
  /-- The tag of the variable. -/
  tag : Option Tag := none
  /-- The name of its own type. -/
  typeName : String
  /-- Its type and the ancestors, nearest first. -/
  hierarchy : List TypeRecord

/-- A rule, chosen for a type. -/
structure RuleMatch where
  visualizer : Visualizer
  /-- The type that the pattern covers. -/
  matchedType : TypeTree

/-- The template arguments of the type, bound to `$T1`, `$T2` and so on. -/
def RuleMatch.scopedNames (m : RuleMatch) : List (String × String) :=
  m.matchedType.args.mapIdx fun i arg => ("$T" ++ toString (i + 1), arg.fullName)

namespace Catalogue

/-- The entry of the highest priority; of several, the first. -/
def highest : List Entry → Option Entry
  | [] => none
  | e :: es =>
    some (es.foldl
      (fun best e => if e.visualizer.priority.rank ≤ best.visualizer.priority.rank then best else e)
      e)

/-- The rule for one type. -/
def choose (c : Catalogue) (ranked : Bool) (type : TypeTree) : Option RuleMatch :=
  let candidates := c.covering type
  (if ranked then highest candidates else candidates.head?).map fun e => ⟨e.visualizer, type⟩

/-- The rule for a record of the hierarchy. -/
def chooseFor (c : Catalogue) (ranked : Bool) (record : TypeRecord) : Option RuleMatch := do
  let type ← TypeTree.parse? record.name
  match c.choose ranked type with
  | some m => some m
  | none =>
    if record.canonicalName == record.name then none
    else c.choose ranked (← TypeTree.parse? record.canonicalName)

/-- The rule found along a hierarchy; the bound is the number of ancestors
looked at. -/
def walk (c : Catalogue) (ranked : Bool) (bound : Nat) (hierarchy : List TypeRecord) :
    Option RuleMatch :=
  (hierarchy.take (bound + 1)).findSome? (c.chooseFor ranked)

/-- The rule for a tag. -/
def chooseTagged (c : Catalogue) (ranked : Bool) (tag : Tag) : Option RuleMatch := do
  c.choose ranked (← TypeTree.parse? tag.typeName)

/-- The rule for a variable: that of its tag, or else the one found along
its hierarchy. -/
def lookup (c : Catalogue) (options : Options) (s : Subject) : Option RuleMatch :=
  let ranked := options.flag .priorities
  (s.tag.bind (c.chooseTagged ranked)).or
    (c.walk ranked (options.get .maxInheritedTypes) s.hierarchy)

end Catalogue

end WatchView
