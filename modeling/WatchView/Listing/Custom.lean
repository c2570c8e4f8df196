import WatchView.Evaluation.Fill
import WatchView.Listing.Element
import WatchView.Program.Run
import WatchView.Session
/-!
# Custom lists

The rows of a custom list are the items its program shows. The program
begins when the list is counted for the first time: its variables are
created under scratch names, and the size is evaluated if one is declared.
From then on it runs for as many items as someone asks for, and goes on
where it stopped.

After a failed evaluation the program does not run again. The failure is a
row behind the items, unless the list is optional and has no items. When the
program has ended, positions up to the declared size without an item show
how many items there were.
-/

namespace WatchView

namespace CustomListing

variable {σ ν : Type}

/-- The number of items to run for. -/
def effectiveLimit (options : Options) (l : CustomListing ν) : Nat :=
  if l.limit = 0 then options.get .customListLimit else l.limit

/-- The list after a failed evaluation. -/
def fail (l : CustomListing ν) (e : EvalError) : CustomListing ν :=
  { l with
    failed := true
    shown :=
      if l.shown.isEmpty && l.rule.guard.optional then l.shown
      else l.shown.push (.error (Variable.failureText e.message)) }

/-! ## Running -/

/-- The number of the next item. -/
def nextItem : StateT Nat (StateM σ) Nat := modifyGet fun n => (n, n + 1)

/-- The name of an item. -/
def itemName (ev : Evaluator σ ν) (c : Context ν) (name : Option String) (index : Nat) :
    StateM σ (Except EvalError String) :=
  match name.filter fun name => !Text.isBlankText name with
  | none => pure (.ok (positionName index))
  | some template => ev.nameText template c.owner c.scope

/-- The host that evaluates the expressions of a program in a context. Its
state is the number of items. -/
def host (ev : Evaluator σ ν) (c : Context ν) :
    Host (StateT Nat (StateM σ)) EvalError (Variable ν) where
  holds condition := c.holds ev condition
  item name value := do
    let index ← nextItem
    match ← itemName ev c name index with
    | .error e => pure (.error e)
    | .ok name =>
      match ← ev.evaluate value c.owner c.scope (some name) with
      | .error e => pure (.error e)
      | .ok answer =>
        return .ok (answer.toVariable.decorated ev.debugger.toInspector (← getThe σ))
  exec value := do
    return (← ev.evaluate value c.owner c.scope none).map fun _ => ()

/-- Run the program for one step. -/
def step (ev : Evaluator σ ν) (l : CustomListing ν) (run : ProgramRun ν) :
    StateM σ (CustomListing ν) := do
  let host := host ev { l.context with scope := run.scope }
  let ((result, program), items) ← (run.program.step host).run run.items
  let l := { l with run := some { run with program, items } }
  match result with
  | .ok (.item row) => pure { l with shown := l.shown.push row }
  | .ok _ => pure l
  | .error e => pure (l.fail e)

/-- Run the program until there are so many rows, or it ends or fails. -/
def runOn (ev : Evaluator σ ν) (target : Nat) :
    Nat → CustomListing ν → Bounded σ (CustomListing ν)
  | 0, _ => .unfinished
  | bound + 1, l =>
    match l.run with
    | none => pure l
    | some run => do
      if target ≤ l.shown.size || run.program.isFinished || l.failed then pure l
      else runOn ev target bound (← l.step ev run)

/-- Whether the program has ended without a failure. -/
def hasEnded (l : CustomListing ν) : Bool :=
  !l.failed && l.run.any fun run => run.program.isFinished

/-- The row at positions up to the declared size without an item. -/
def shortfallRow (l : CustomListing ν) (size : Nat) : Variable ν :=
  l.shortfall.getD (.error s!"Size declared as {size} but only {l.shown.size} item(s) found.")

/-- The list with rows up to a target for items that are missing. -/
def padded (l : CustomListing ν) (target : Nat) : CustomListing ν :=
  match l.size with
  | none => l
  | some size =>
    let missing := min target size - l.shown.size
    if l.hasEnded && 0 < missing then
      let row := l.shortfallRow size
      { l with shown := l.shown ++ Array.replicate missing row, shortfall := some row }
    else l

/-- Run the program for so many rows. -/
def runTo (ev : Evaluator σ ν) (bound target : Nat) (l : CustomListing ν) :
    Bounded σ (CustomListing ν) := do
  if l.failed || !l.standing.isSound then pure l
  else
    let l ← runOn ev target bound l
    pure (l.padded target)

/-! ## Beginning -/

/-- Create variables under scratch names. The scope binds their names. -/
def declareAll (ev : Evaluator σ ν) (owner : Variable ν) :
    List VariableDecl → Scope (Variable ν) → Run σ ν (Except EvalError (Scope (Variable ν)))
  | [], scope => return .ok scope
  | decl :: decls, scope => do
    let scratch ← Engine.scratchName decl.name
    match ← ev.declare owner decl.name decl.initial (scope.bindToken decl.name scratch) with
    | .error e => return .error e
    | .ok scope => declareAll ev owner decls scope

/-- Begin a program. -/
def start (ev : Evaluator σ ν) (program : Sequence) (l : CustomListing ν) :
    Run σ ν (CustomListing ν) := do
  let c := l.context
  match ← declareAll ev c.owner l.rule.declarations c.scope with
  | .error e => return { l with run := some { program, scope := c.scope } }.fail e
  | .ok scope =>
    let l := { l with run := some { program, scope } }
    match ← ev.declaredSize c.owner scope l.rule.sizes with
    | .ok n => return { l with size := some n }
    | .error (.evaluation e) => return l.fail e
    | .error _ => return l

/-- The list with its program begun. -/
def started (ev : Evaluator σ ν) (l : CustomListing ν) :
    Run σ ν (Except ExpandError (CustomListing ν)) := do
  if l.run.isSome then return .ok l
  else
    match Program.compile l.rule.body with
    | .error e => return .error e
    | .ok program => return .ok (← l.start ev program)

/-- The declared size, or the number of rows when the program has run up to
the limit. -/
def count (engine : Engine σ ν) (bound : Nat) (l : CustomListing ν) :
    Search σ ν (Except ExpandError Nat × CustomListing ν) := do
  match ← l.started engine.evaluator with
  | .error e => return (.error e, l)
  | .ok l =>
    match l.size with
    | some n => return (.ok n, l)
    | none =>
      let l ← Search.ofTarget
        (l.runTo engine.evaluator bound (l.effectiveLimit engine.options))
      return (.ok l.shown.size, l)

/-- The listing, settled. -/
def settled (engine : Engine σ ν) (bound : Nat) (l : CustomListing ν) :
    Search σ ν (Standing ν × CustomListing ν) := do
  if l.current then return (l.standing, l)
  else
    let (standing, l) ← Standing.settle l.rule.guard
      (l.context.applies engine.evaluator l.rule.guard) (fun l => l.count engine bound) l
    return (standing, { l with standing, current := true })

/-- Whether nothing failed; an optional list is sound in any case. -/
def isSound (l : CustomListing ν) : Bool :=
  l.rule.guard.optional || (l.standing.isSound && !l.failed)

/-- The rows in a window. -/
def rows (engine : Engine σ ν) (bound : Nat) (l : CustomListing ν) (start count : Nat) :
    Search σ ν (List (Variable ν) × CustomListing ν) := do
  let (standing, l) ← l.settled engine bound
  match standing with
  | .failed row => return (clip start count [row], l)
  | .counted n =>
    let l ← Search.ofTarget
      (l.runTo engine.evaluator bound (min (windowEnd start count) n))
    return ((windowOf n start count).filterMap (l.shown[·]?), l)

end CustomListing

end WatchView
