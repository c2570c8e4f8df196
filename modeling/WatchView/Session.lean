import WatchView.Bounded
import WatchView.Catalogue.Report
import WatchView.Listing.Basic
/-!
# The engine and its session

The engine is a debugger and the options. What changes while it works is the
session: the state of the debugger, the rule book, how deep display strings
are nested, how many scratch names were given out, and the listings that
pages share.

Work on a session that always comes to an end is a `Run`. Listing children
may go on for ever, as for a rule that lists a value among its own children;
such work is a `Search` within a bound.
-/

namespace WatchView

/-- What stays the same. -/
structure Engine (σ ν : Type) where
  debugger : Debugger σ ν
  options : Options

/-- What changes. -/
structure Session (σ ν : Type) where
  /-- The state of the debugger. -/
  target : σ
  /-- The rules and the answers given from them. -/
  book : RuleBook
  /-- The number of display strings being formatted. -/
  depth : Nat := 0
  /-- The number of scratch names given out. -/
  scratchCount : Nat := 0
  /-- The listings that pages share. -/
  listings : Array (Listing ν) := #[]

/-- Work on a session that comes to an end. -/
abbrev Run (σ ν : Type) := StateM (Session σ ν)

/-- Work on a session within a bound. -/
abbrev Search (σ ν : Type) := Bounded (Session σ ν)

variable {σ ν α : Type}

/-- Work on the debugger is work on the session. -/
def Run.ofTarget (act : StateM σ α) : Run σ ν α := fun s =>
  let (a, target) := act s.target
  (a, { s with target })

/-- Work on the debugger within a bound. -/
def Search.ofTarget (act : Bounded σ α) : Search σ ν α := fun s =>
  (act s.target).map fun (a, target) => (a, { s with target })

instance : MonadLift (StateM σ) (Run σ ν) := ⟨Run.ofTarget⟩

instance : MonadLift (Bounded σ) (Search σ ν) := ⟨Search.ofTarget⟩

namespace Engine

/-- The evaluator of expressions. -/
def evaluator (engine : Engine σ ν) : Evaluator σ ν where
  debugger := engine.debugger
  strategy := engine.options.strategy

/-- The part of the debugger that answers questions. -/
def inspector (engine : Engine σ ν) : Inspector σ ν := engine.debugger.toInspector

/-- What is known of a variable now. -/
def facts (engine : Engine σ ν) (v : Variable ν) : Run σ ν Facts := do
  return v.facts engine.inspector (← get).target

/-- The variable shown by its rule, unless it is raw or failed. -/
def decorate (engine : Engine σ ν) (v : Variable ν) : Run σ ν (Variable ν) := do
  return v.decorated engine.inspector (← get).target

/-- The row of the raw value of a variable. -/
def rawView (engine : Engine σ ν) (v : Variable ν) : Run σ ν (Variable ν) := do
  return v.rawView engine.inspector (← get).target

/-- The rule for a variable. -/
def findRule (engine : Engine σ ν) (v : Variable ν) : Run σ ν (Option RuleMatch) := do
  let f ← engine.facts v
  modifyGet fun s =>
    let (found, book) := s.book.find engine.options f.subject
    (found, { s with book })

/-- The scope of the expressions of a rule. -/
def scopeOf (m : RuleMatch) : Scope (Variable ν) := .ofTokens m.scopedNames

/-- Whether a variable has a rule, and the rule's views admit its
specifier. -/
def isRuled (engine : Engine σ ν) (v : Variable ν) : Run σ ν Bool := do
  match ← engine.findRule v with
  | none => return false
  | some m =>
    let f ← engine.facts v
    return Specifier.admitsView f.spec m.visualizer.includeView m.visualizer.excludeView

/-- A name for a scratch variable that was not given out before. -/
def scratchName (name : String) : Run σ ν String :=
  modifyGet fun s =>
    ("$" ++ name ++ "_" ++ toString s.scratchCount, { s with scratchCount := s.scratchCount + 1 })

/-- Keep a listing for pages to share. -/
def keepListing (l : Listing ν) : Run σ ν Nat :=
  modifyGet fun s => (s.listings.size, { s with listings := s.listings.push l })

end Engine

end WatchView
