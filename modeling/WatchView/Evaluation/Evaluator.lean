import WatchView.Evaluation.Debugger
import WatchView.Evaluation.Substitution
import WatchView.Options
/-!
# Evaluating expressions

An expression of a rule is evaluated for a variable in a scope. It is split
into value and specifier, the tokens of the value are replaced, and a
pending size is evaluated and put in. Then the debugger's means are tried in
order, as the strategy says (`attempts`), until one succeeds or refuses:

    strategy         means in order
    path, then full  member path, full evaluation
    fast only        fast evaluator
    fast, then full  fast evaluator, full evaluation

An expression with a scratch variable in it leaves out the fast evaluator
and always comes to full evaluation. If all fail, the error lists what each
of them said.

A result that is nothing but a scratch variable is replaced by a snapshot,
since the scratch variable goes on changing.
-/

namespace WatchView

/-- Why there is no result. -/
inductive EvalError where
  /-- Every means failed, for these reasons. -/
  | failed (name : Option String) (expression : String) (reasons : List String)
  /-- A scratch variable could not be created. -/
  | notDeclared (name expression reason : String)
  /-- A scratch variable was to be created for a pointer that leads nowhere. -/
  | danglingPointer (name : String)
  /-- The value of a size is no number, or its expression is empty. -/
  | badSize (reason : String)
deriving Repr, DecidableEq, Inhabited

namespace EvalError

/-- A text between braces. -/
def braced (s : String) : String := "\x7b" ++ s ++ "\x7d"

/-- The error in words. Reasons without words are left out. -/
def message : EvalError → String
  | failed name expression reasons =>
    let reasons := reasons.filter fun r => !r.isEmpty
    "Failed to evaluate expression, display name: " ++ name.getD "" ++ ", expression: " ++
      expression ++
      if reasons.isEmpty then "" else ", info: " ++ braced (String.intercalate "; " reasons)
  | notDeclared name expression reason =>
    s!"Failed to declare variable: Name: {name}, Expression: {expression}" ++
      if reason.isEmpty then "" else ", Info: " ++ braced reason
  | danglingPointer name => s!"Failed to dereference pointer: Name: {name}"
  | badSize reason => s!"Failed to evaluate <Size> node. {reason}"

end EvalError

/-- What became of one means of evaluation. -/
inductive Attempt (ν : Type) where
  /-- It found the result. -/
  | found (answer : Answer ν)
  /-- It failed, and the next may be tried. -/
  | missed (reason : String)
  /-- It failed, and so would the others. -/
  | refused (reason : String)

/-- A debugger and the order to use its means in. -/
structure Evaluator (σ ν : Type) where
  debugger : Debugger σ ν
  strategy : Strategy

namespace Evaluator

variable {σ ν : Type}

/-- A result, unless it carries an error. -/
def accept (ev : Evaluator σ ν) (answer : Answer ν) : StateM σ (Attempt ν) := do
  match (ev.debugger.facts (← get) answer.handle).error with
  | none => pure (.found answer)
  | some message => pure (.missed message)

/-- Ask the fast evaluator, with the pointer followed. -/
def tryFast (ev : Evaluator σ ν) (e : WatchExpr) (v : Variable ν) (scope : Scope (Variable ν))
    (name : Option String) : StateM σ (Attempt ν) := do
  let target := v.followed ev.debugger.toInspector (← get)
  match ← ev.debugger.fast target e name scope.scratch with
  | .ok handle => ev.accept ⟨handle, none⟩
  | .error failure =>
    pure (if failure.code.isFinal then .refused failure.message else .missed failure.message)

/-- The expression as a path from the variable. -/
def asPath (d : Inspector σ ν) (s : σ) (v : Variable ν) (e : WatchExpr) : WatchExpr :=
  if e.value.toList.head? == some '[' then e
  else e.withValue ((if (v.facts d s).isPointer then "->" else ".") ++ e.value)

/-- Follow the expression, if it is a member path. The result takes the name
asked for and the specifier. -/
def tryPath (ev : Evaluator σ ν) (e : WatchExpr) (v : Variable ν) (name : Option String) :
    StateM σ (Attempt ν) := do
  let path := asPath ev.debugger.toInspector (← get) v e
  if MemberPath.isPath path.value then
    match ← ev.debugger.path v path with
    | none => pure (.missed "")
    | some handle => ev.accept ⟨handle, name.map fun n => (n, e.spec.text)⟩
  else pure (.missed "")

/-- Evaluate in full, with the pointer followed. -/
def tryFull (ev : Evaluator σ ν) (e : WatchExpr) (v : Variable ν) (name : Option String) :
    StateM σ (Attempt ν) := do
  let target := v.followed ev.debugger.toInspector (← get)
  match ← ev.debugger.full target e name with
  | .ok handle => ev.accept ⟨handle, none⟩
  | .error message => pure (.missed message)

/-- The means to try, in order. -/
def attempts (ev : Evaluator σ ν) (scratch : Bool) (e : WatchExpr) (v : Variable ν)
    (scope : Scope (Variable ν)) (name : Option String) : List (StateM σ (Attempt ν)) :=
  (if ev.strategy.usesFast && !scratch then [ev.tryFast e v scope name] else []) ++
  (if ev.strategy = .pathThenFull then [ev.tryPath e v name] else []) ++
  (if ev.strategy.usesFull || scratch then [ev.tryFull e v name] else [])

/-- Make attempts until one settles the matter. The error lists the reasons
of all that failed. -/
def tryEach : List (StateM σ (Attempt ν)) → StateM σ (Except (List String) (Answer ν))
  | [] => pure (.error [])
  | attempt :: more => do
    match ← attempt with
    | .found answer => pure (.ok answer)
    | .refused reason => pure (.error [reason])
    | .missed reason =>
      match ← tryEach more with
      | .ok answer => pure (.ok answer)
      | .error reasons => pure (.error (reason :: reasons))

/-- The result as it is at this moment, if it would change. Results under a
name of their own are kept. -/
def detached (d : Inspector σ ν) (s : σ) (spec : String) (answer : Answer ν) : Answer ν :=
  match answer.shownAs with
  | some _ => answer
  | none => ((d.snapshot? s answer.handle spec).map (⟨·, none⟩)).getD answer

/-- The specifier with the size put in, if the text of its value is a
number. -/
def resized (spec : FormatSpec) (text : String) : FormatSpec :=
  match Text.numeral? 10 Text.bound32 (Text.trim text.toList) with
  | some n => spec.withSize n
  | none => spec

/-- Evaluate an expression for a variable. The result is shown under `name`,
if there is one. -/
def evaluate (ev : Evaluator σ ν) (expression : String) (v : Variable ν)
    (scope : Scope (Variable ν)) (name : Option String) :
    StateM σ (Except EvalError (Answer ν)) := do
  let parsed := WatchExpr.parse expression
  let value := Substitution.substitute scope parsed.value
  let spec ←
    match _h : parsed.spec with
    | .pending size suffix => do
      match ← ev.evaluate size v scope none with
      | .error _ => pure (FormatSpec.pending size suffix)
      | .ok answer =>
        pure (resized (.pending size suffix)
          (answer.text ev.debugger.toInspector (← get) .value))
    | spec => pure spec
  let e : WatchExpr := { value, spec }
  let scratch := Substitution.usesScratch scope parsed.value
  match ← tryEach (ev.attempts scratch e v scope name) with
  | .error reasons => pure (.error (.failed name e.display reasons))
  | .ok answer =>
    if scope.isScratchName value then
      pure (.ok (detached ev.debugger.toInspector (← get) spec.text answer))
    else pure (.ok answer)
termination_by expression.length
decreasing_by exact WatchExpr.length_pending_lt _h

/-- The row of a failed evaluation. -/
def failureRow (name : String) (e : EvalError) : Variable ν :=
  .failure name (Variable.failureText e.message)

/-- Evaluate an expression; a failure becomes a row. -/
def evaluateRow (ev : Evaluator σ ν) (expression : String) (v : Variable ν)
    (scope : Scope (Variable ν)) (name : String) : StateM σ (Variable ν) := do
  match ← ev.evaluate expression v scope (some name) with
  | .ok answer => pure answer.toVariable
  | .error e => pure (failureRow name e)

/-- Whether a condition holds. One that is missing or blank does. -/
def holds (ev : Evaluator σ ν) (condition : Option String) (v : Variable ν)
    (scope : Scope (Variable ν)) : StateM σ (Except EvalError Bool) := do
  match condition.map Text.trimmed with
  | none => pure (.ok true)
  | some condition =>
    if condition.isEmpty then pure (.ok true)
    else
      match ← ev.evaluate condition v scope none with
      | .error e => pure (.error e)
      | .ok answer => pure (.ok (answer.isTruthy ev.debugger.toInspector (← get)))

/-- Whether a guarded element applies to a variable: its views admit the
variable's specifier and its condition holds. -/
def applies (ev : Evaluator σ ν) (guard : Guard) (v : Variable ν) (scope : Scope (Variable ν)) :
    StateM σ (Except EvalError Bool) := do
  let spec := (v.facts ev.debugger.toInspector (← get)).spec
  if Specifier.admitsView spec guard.includeView guard.excludeView then
    ev.holds guard.condition v scope
  else pure (.ok false)

/-! ## Scratch variables -/

/-- Full evaluation of a declaration or of the variable it made. -/
def declareStep (ev : Evaluator σ ν) (target : Variable ν) (e : WatchExpr) (name : String) :
    StateM σ (Except String ν) := do
  match ← ev.debugger.full target e (some name) with
  | .error message => pure (.error message)
  | .ok handle =>
    match (ev.debugger.facts (← get) handle).error with
    | some message => pure (.error message)
    | none => pure (.ok handle)

/-- Create the scratch variable that the token `name` is bound to, with the
value of an expression, and record it in the scope. -/
def declare (ev : Evaluator σ ν) (v : Variable ν) (name expression : String)
    (scope : Scope (Variable ν)) : StateM σ (Except EvalError (Scope (Variable ν))) := do
  let d := ev.debugger.toInspector
  let scratch := Substitution.substitute scope name
  let initial := WatchExpr.parse expression
  let value := Substitution.substitute scope initial.value
  let creation := initial.withValue ("auto " ++ scratch ++ "=" ++ value ++ "; " ++ scratch)
  let s ← get
  if v.isIndirect d s && (v.pointee? d s).isNone then pure (.error (.danglingPointer name))
  else
    let target := v.followed d s
    match ← ev.declareStep target creation name with
    | .error reason => pure (.error (.notDeclared name expression reason))
    | .ok _ =>
      match ← ev.declareStep target (WatchExpr.parse scratch) name with
      | .error reason => pure (.error (.notDeclared name expression reason))
      | .ok handle => pure (.ok (scope.addScratch scratch (.debugger handle)))

end Evaluator

end WatchView
