/-!
# Options

The engine is set up by a handful of numbers, one for each property. A flag
is a number too, and stands for yes unless it is zero. The evaluation
strategy, one of three, is coded as a number like the others.
-/

namespace WatchView

/-- Which of the debugger's evaluators are asked, and in which order. -/
inductive Strategy where
  /-- Follow member paths, then evaluate in full. -/
  | pathThenFull
  /-- Ask the fast evaluator only. -/
  | fastOnly
  /-- Ask the fast evaluator, then evaluate in full. -/
  | fastThenFull
deriving Repr, DecidableEq, Inhabited

namespace Strategy

/-- The strategy of a code; unknown codes stand for the last one. -/
def ofCode : Nat → Strategy
  | 0 => pathThenFull
  | 1 => fastOnly
  | _ => fastThenFull

/-- The code of a strategy. -/
def code : Strategy → Nat
  | pathThenFull => 0
  | fastOnly => 1
  | fastThenFull => 2

/-- The name a strategy is reported under. -/
def label : Strategy → String
  | pathThenFull => "Lldb"
  | fastOnly => "LldbEval"
  | fastThenFull => "LldbEvalWithFallback"

/-- Whether the fast evaluator is asked. -/
def usesFast : Strategy → Bool
  | pathThenFull => false
  | _ => true

/-- Whether expressions are evaluated in full. -/
def usesFull : Strategy → Bool
  | fastOnly => false
  | _ => true

/-- Every strategy is the one of its code. -/
@[simp] theorem ofCode_code (s : Strategy) : ofCode s.code = s := by cases s <;> rfl

end Strategy

/-- What can be set. -/
inductive Property where
  /-- The code of the evaluation strategy. -/
  | strategy
  /-- How many levels of display strings are nested. -/
  | maxFormatDepth
  /-- How many ancestors of a type are looked at. -/
  | maxInheritedTypes
  /-- How many elements of an index list make a page. -/
  | indexListLimit
  /-- How many elements of an array make a page. -/
  | arrayLimit
  /-- How many nodes of a linked list make a page. -/
  | linkedListLimit
  /-- How many nodes of a tree make a page. -/
  | treeLimit
  /-- How many items of a custom list make a page. -/
  | customListLimit
  /-- Flag: the built-in rule for strings is loaded. -/
  | stringRule
  /-- Flag: the files of the rule source are loaded. -/
  | loadFiles
  /-- Flag: custom lists are run. -/
  | customLists
  /-- Flag: rules are ranked by priority. -/
  | priorities
deriving Repr, DecidableEq, Inhabited

/-- The value of a property that is not set. -/
def Property.default : Property → Nat
  | .strategy => Strategy.fastThenFull.code
  | .maxFormatDepth => 10
  | .maxInheritedTypes => 100
  | .indexListLimit => 50000
  | .arrayLimit => 50000
  | .linkedListLimit => 100
  | .treeLimit => 100
  | .customListLimit => 20
  | .stringRule => 0
  | .loadFiles => 1
  | .customLists => 1
  | .priorities => 0

/-- The values of all properties. -/
structure Options where
  /-- The value of a property. -/
  get : Property → Nat := Property.default

namespace Options

instance : Inhabited Options := ⟨{}⟩

/-- Set a property. -/
def set (o : Options) (p : Property) (value : Nat) : Options :=
  { get := fun q => if q = p then value else o.get q }

/-- Whether a flag is set. -/
def flag (o : Options) (p : Property) : Bool := o.get p != 0

/-- The evaluation strategy. -/
def strategy (o : Options) : Strategy := .ofCode (o.get .strategy)

/-- Set the evaluation strategy. -/
def withStrategy (o : Options) (s : Strategy) : Options := o.set .strategy s.code

/-- The strategy is the one that was set. -/
@[simp] theorem strategy_withStrategy (o : Options) (s : Strategy) :
    (o.withStrategy s).strategy = s := by
  simp [strategy, withStrategy, set]

end Options

end WatchView
