import WatchView.Evaluation.Evaluator
import WatchView.Template
/-!
# Filling templates

A template is filled by putting a text in place of each expression, from
left to right; the first expression without one ends it. A blank template
gives the empty text. In the templates of names the text of an expression is
the debugger's own.
-/

namespace WatchView

namespace Template

variable {m : Type → Type} [Monad m] {ε : Type}

/-- Put the pieces together, with the expressions replaced. -/
def fillParts (hole : String → m (Except ε String)) : List Part → m (Except ε String)
  | [] => pure (.ok "")
  | .literal text :: parts => do
    match ← fillParts hole parts with
    | .error e => pure (.error e)
    | .ok rest => pure (.ok (String.ofList text ++ rest))
  | .placeholder expression :: parts => do
    match ← hole (String.ofList expression) with
    | .error e => pure (.error e)
    | .ok text =>
      match ← fillParts hole parts with
      | .error e => pure (.error e)
      | .ok rest => pure (.ok (text ++ rest))

/-- Fill a template. -/
def fill (hole : String → m (Except ε String)) (template : String) : m (Except ε String) :=
  if Text.isBlankText template then pure (.ok "") else fillParts hole (parts template)

end Template

/-- Fill the template of a name. -/
def Evaluator.nameText {σ ν : Type} (ev : Evaluator σ ν) (template : String) (v : Variable ν)
    (scope : Scope (Variable ν)) : StateM σ (Except EvalError String) :=
  Template.fill
    (fun expression => do
      match ← ev.evaluate expression v scope none with
      | .error e => pure (.error e)
      | .ok answer => pure (.ok (answer.text ev.debugger.toInspector (← get) .value)))
    template

end WatchView
