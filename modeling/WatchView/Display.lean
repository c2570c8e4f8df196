import WatchView.Evaluation.Fill
import WatchView.Session
/-!
# Texts from templates

The rule for a variable gives its text by guarded templates, of which the
first that applies counts. A template that fails is passed over if it is
optional; otherwise the variable shows its plain text, the one it has
without the rule. It shows its plain text as well if no template applies.

The value of an expression in a template is shown by its own rule in turn,
down to a number of levels; what is nested deeper shows as three dots.
`valueText` counts the levels that are left, so it always ends.
-/

namespace WatchView

namespace Engine

variable {σ ν : Type}

/-- What is shown in place of values nested too deep. -/
def tooDeep : String := "..."

/-- The templates of a rule. A smart pointer shows what it points to if no
other line of text applies. -/
def templates (v : Visualizer) : TextKind → List GuardedText
  | .stringView => v.stringView
  | .value =>
    v.display ++
      match v.smartPointer with
      | none => []
      | some pointer =>
        if Text.isBlankText pointer.value then []
        else [{ guard := pointer.guard, value := EvalError.braced pointer.value }]

/-- The templates for a variable and their scope. A raw variable has none. -/
def templatesFor (engine : Engine σ ν) (kind : TextKind) (v : Variable ν) :
    Run σ ν (List GuardedText × Scope (Variable ν)) := do
  let f ← engine.facts v
  if Specifier.isRaw f.spec then return ([], default)
  else
    match ← engine.findRule v with
    | none => return ([], default)
    | some m => return (templates m.visualizer kind, scopeOf m)

/-- The text of the first template that applies, with `hole` for the texts
of values; none if no template applies. -/
def firstText (engine : Engine σ ν) (hole : Answer ν → Run σ ν String) (v : Variable ν)
    (scope : Scope (Variable ν)) :
    List GuardedText → Run σ ν (Except EvalError (Option String))
  | [] => return .ok none
  | template :: rest => do
    let text : Except EvalError (Option String) ←
      match ← engine.evaluator.applies template.guard v scope with
      | .error e => pure (.error e)
      | .ok false => pure (.ok none)
      | .ok true => do
        let filled ← Template.fill
          (fun expression => do
            match ← engine.evaluator.evaluate expression v scope none with
            | .error e => return .error e
            | .ok answer => return .ok (← hole answer))
          template.value
        pure (filled.map some)
    match text with
    | .ok none => engine.firstText hole v scope rest
    | .ok (some text) => return .ok (some text)
    | .error e =>
      if template.guard.optional then engine.firstText hole v scope rest else return .error e

/-- The debugger's own text for a value. -/
def plainText (engine : Engine σ ν) (kind : TextKind) (answer : Answer ν) : Run σ ν String := do
  return answer.text engine.inspector (← get).target kind

/-- The text of a value in a template, with so many levels left. -/
def valueText (engine : Engine σ ν) (kind : TextKind) : Nat → Answer ν → Run σ ν String
  | 0, answer => do
    let _ ← engine.templatesFor kind answer.toVariable
    return tooDeep
  | levels + 1, answer => do
    let v := answer.toVariable
    let (templates, scope) ← engine.templatesFor kind v
    match ← engine.firstText (engine.valueText kind levels) v scope templates with
    | .ok (some text) => return text
    | _ => engine.plainText kind answer

/-- Change the number of display strings being formatted. -/
def setDepth (depth : Nat) : Search σ ν Unit := modify fun s => { s with depth }

/-- The text of the first template that applies to a variable. The variable
is a level of its own, also while its plain text is made for want of a
template. -/
def format (engine : Engine σ ν) (kind : TextKind) (plain : Search σ ν String)
    (templates : List GuardedText) (v : Variable ν) (scope : Scope (Variable ν)) :
    Search σ ν (Except EvalError String) := do
  let depth := (← get).depth
  match engine.options.get .maxFormatDepth - depth with
  | 0 => return .ok tooDeep
  | levels + 1 =>
    setDepth (depth + 1)
    let text ← engine.firstText (engine.valueText kind levels) v scope templates
    let text : Except EvalError String ←
      match text with
      | .error e => pure (.error e)
      | .ok (some text) => pure (.ok text)
      | .ok none => pure (.ok (← plain))
    setDepth depth
    return text

/-- The text a variable has by its rule. -/
def ruleText (engine : Engine σ ν) (kind : TextKind) (plain : Search σ ν String)
    (v : Variable ν) : Search σ ν String := do
  let (templates, scope) ← engine.templatesFor kind v
  match ← engine.format kind plain templates v scope with
  | .ok text => return text
  | .error _ => plain

end Engine

end WatchView
