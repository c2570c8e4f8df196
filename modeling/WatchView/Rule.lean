/-!
# Visualizer rules

A visualizer is a rule for the types that one of its patterns covers. It
tells how to show a value of the type in a line of text, how to show it as a
string, and which children to list when it is expanded. Rules come in files,
already read from whatever markup they were written in.

An element of a rule is guarded: it applies only in some views, only if a
condition holds, and if it is optional it may fail without a trace.
-/

namespace WatchView

/-- The rank of a rule among others for the same type. -/
inductive Priority where
  | low
  | mediumLow
  | medium
  | mediumHigh
  | high
deriving Repr, DecidableEq, Inhabited

namespace Priority

/-- The ranks as numbers, lowest first. -/
def rank : Priority → Nat
  | low => 0
  | mediumLow => 1
  | medium => 2
  | mediumHigh => 3
  | high => 4

/-- The name of a rank. -/
def label : Priority → String
  | low => "Low"
  | mediumLow => "MediumLow"
  | medium => "Medium"
  | mediumHigh => "MediumHigh"
  | high => "High"

end Priority

/-- When an element of a rule applies. -/
structure Guard where
  /-- An expression that has to hold. -/
  condition : Option String := none
  /-- The views the element is shown in. -/
  includeView : Option String := none
  /-- The views the element is hidden in. -/
  excludeView : Option String := none
  /-- Whether failures of the element are passed over. -/
  optional : Bool := false
deriving Repr, DecidableEq, Inhabited

/-- A text with a guard: a template or the expression of a size. -/
structure GuardedText where
  guard : Guard := {}
  value : String
deriving Repr, DecidableEq, Inhabited

/-- An expression with a condition. -/
structure ConditionalText where
  condition : Option String := none
  value : String
deriving Repr, DecidableEq, Inhabited

/-- What a node of a list or tree is shown as. -/
structure ValueNode where
  /-- A template for the name. -/
  name : Option String := none
  /-- The expression of the value. -/
  value : String
deriving Repr, DecidableEq, Inhabited

/-- A child with a name and an expression. -/
structure ItemRule where
  guard : Guard := {}
  name : String
  value : String
deriving Repr, DecidableEq, Inhabited

/-- The children of another value, listed in place. -/
structure ExpandedItemRule where
  guard : Guard := {}
  value : String
deriving Repr, DecidableEq, Inhabited

/-- Children made by an expression of the index `$i`. -/
structure IndexListRule where
  guard : Guard := {}
  sizes : List GuardedText := []
  valueNodes : List ConditionalText := []
deriving Repr, DecidableEq, Inhabited

/-- The elements behind a pointer. -/
structure ArrayRule where
  guard : Guard := {}
  sizes : List GuardedText := []
  valuePointers : List ConditionalText := []
deriving Repr, DecidableEq, Inhabited

/-- How to get from node to node. -/
inductive Links where
  /-- Along a linked list. -/
  | list (next : String)
  /-- Through a binary tree, in order. -/
  | tree (left right : String)
deriving Repr, DecidableEq, Inhabited

/-- The nodes reached from a head by following pointers. -/
structure NodeRule where
  guard : Guard := {}
  /-- The declared number of nodes. -/
  size : Option String := none
  /-- The expression of the first node, or of the root. -/
  head : String
  /-- The pointers to follow. -/
  links : Links
  valueNode : Option ValueNode := none
deriving Repr, DecidableEq, Inhabited

/-- A variable of a custom list. -/
structure VariableDecl where
  name : String
  initial : String
deriving Repr, DecidableEq, Inhabited

/-- An instruction of a custom list. -/
inductive Instruction where
  /-- Show a value. -/
  | item (condition name : Option String) (value : String)
  /-- Evaluate an expression for its effect. -/
  | exec (condition : Option String) (value : String)
  /-- Leave the innermost loop. -/
  | leave (condition : Option String)
  /-- Repeat as long as the condition holds. -/
  | loop (condition : Option String) (body : List Instruction)
  /-- The first branch of a conditional. -/
  | ifThen (condition : String) (body : List Instruction)
  /-- A further branch of the conditional in front. -/
  | elseIf (condition : String) (body : List Instruction)
  /-- The last branch of the conditional in front. -/
  | otherwise (body : List Instruction)
  /-- Anything else. -/
  | unsupported (element : String)
deriving Repr, Inhabited

/-- Children made by a small program. -/
structure CustomListRule where
  guard : Guard := {}
  declarations : List VariableDecl := []
  sizes : List GuardedText := []
  body : List Instruction := []
deriving Repr, Inhabited

mutual

/-- The children of a value: elements in order, and a row for the raw value
unless it is hidden. -/
structure Expand where
  hideRawView : Bool := false
  items : List ExpandItem := []

/-- A row with a text and children of its own. -/
structure SyntheticRule where
  guard : Guard := {}
  name : String
  display : List GuardedText := []
  stringView : List GuardedText := []
  expand : Option Expand := none

/-- One element of an expansion. -/
inductive ExpandItem where
  | item (rule : ItemRule)
  | synthetic (rule : SyntheticRule)
  | expandedItem (rule : ExpandedItemRule)
  | indexList (rule : IndexListRule)
  | array (rule : ArrayRule)
  | nodes (rule : NodeRule)
  | customList (rule : CustomListRule)
  | unsupported (element : String)

end

instance : Inhabited Expand := ⟨{}⟩

instance : Inhabited ExpandItem := ⟨.unsupported ""⟩

/-- A value that stands for what it points to. -/
structure SmartPointer where
  guard : Guard := {}
  value : String
deriving Repr, DecidableEq, Inhabited

/-- A rule for the types its patterns cover. -/
structure Visualizer where
  /-- The first pattern. -/
  name : String
  /-- Further patterns. -/
  alternatives : List String := []
  priority : Priority := .medium
  includeView : Option String := none
  excludeView : Option String := none
  /-- Templates for the line of text. -/
  display : List GuardedText := []
  /-- Templates for the string. -/
  stringView : List GuardedText := []
  expand : Option Expand := none
  smartPointer : Option SmartPointer := none

/-- All patterns of a rule, the name first. -/
def Visualizer.patterns (v : Visualizer) : List String := v.name :: v.alternatives

/-- The rules from one place. -/
structure RuleFile where
  /-- Where they come from. -/
  origin : String
  visualizers : List Visualizer := []

end WatchView
