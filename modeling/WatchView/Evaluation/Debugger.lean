import WatchView.Variable
import WatchView.WatchExpr
/-!
# The debugger

The debugger answers questions about its variables and evaluates
expressions in their context, by three means. The fast evaluator handles
simple expressions and tells by a code why it failed. Full evaluation
handles what may stand in a member function of the variable's type. A
member path is followed without evaluating anything.

An expression is passed on with its tokens replaced and its size put in.
The name is the one the result is to be shown under, if there is one. A
result that carries an error counts as a failure. Evaluation may change the
state of the debugger.
-/

namespace WatchView

/-- Why the fast evaluator failed. -/
inductive FastCode where
  | invalidLiteral
  | invalidOperand
  | undeclaredIdentifier
  /-- Anything that full evaluation may still handle. -/
  | other
deriving Repr, DecidableEq, Inhabited

/-- Whether full evaluation would fail as well. -/
def FastCode.isFinal : FastCode → Bool
  | other => false
  | _ => true

/-- A failure of the fast evaluator. -/
structure FastError where
  code : FastCode
  message : String
deriving Repr, DecidableEq, Inhabited

/-- A debugger with states `σ` that knows variables by handles `ν`. -/
structure Debugger (σ ν : Type) extends Inspector σ ν where
  /-- The fast evaluator; it is given the scratch variables too. -/
  fast : Variable ν → WatchExpr → Option String → Bindings (Variable ν) →
    StateM σ (Except FastError ν)
  /-- Full evaluation. -/
  full : Variable ν → WatchExpr → Option String → StateM σ (Except String ν)
  /-- Follow a member path. -/
  path : Variable ν → WatchExpr → StateM σ (Option ν)

/-- The result of an evaluation: a variable of the debugger, perhaps under a
name and with a specifier. -/
structure Answer (ν : Type) where
  handle : ν
  shownAs : Option (String × String) := none

namespace Answer

variable {σ ν : Type}

/-- The result as a variable. -/
def toVariable (a : Answer ν) : Variable ν :=
  match a.shownAs with
  | none => .debugger a.handle
  | some (name, spec) => .renamed (.debugger a.handle) name (some spec)

/-- The debugger's own text for the result. -/
def text (d : Inspector σ ν) (s : σ) (kind : TextKind) (a : Answer ν) : String :=
  d.text s kind a.handle

/-- Whether a condition with this result holds. -/
def isTruthy (d : Inspector σ ν) (s : σ) (a : Answer ν) : Bool := (d.facts s a.handle).isTruthy

end Answer

end WatchView
