import WatchView.Catalogue.Choice
import WatchView.Scope
import WatchView.Specifier
/-!
# Variables

A variable is a row of the watch window. Some are the debugger's own, known
to it by a handle. The others are made here: an error, a variable under
another name, a variable shown by its rule, the row that leads to the next
page, the row of a synthetic rule. What they are made from is part of them,
so what they answer follows from their parts.

`Inspector` is the part of a debugger that answers questions about handles.
The answers may change with the debugger's state.
-/

namespace WatchView

/-- What is known of a variable at a glance. -/
structure Facts where
  /-- The name of the row. -/
  name : String
  typeName : String
  /-- The format specifier. -/
  spec : String := ""
  tag : Option Tag := none
  isPointer : Bool := false
  isReference : Bool := false
  isNull : Bool := false
  /-- Whether a condition with this value holds. -/
  isTruthy : Bool
  /-- What went wrong, for a variable that stands for a failure. -/
  error : Option String := none
  /-- The type and its ancestors, nearest first; for a pointer, those of what
  it points to. -/
  hierarchy : List TypeRecord
deriving Inhabited

/-- What the choice of a rule depends on. -/
def Facts.subject (f : Facts) : Subject where
  tag := f.tag
  typeName := f.typeName
  hierarchy := f.hierarchy

/-- A row of the watch window, over the debugger's handles. -/
inductive Variable (ν : Type) where
  /-- A variable of the debugger. -/
  | debugger (handle : ν)
  /-- A row that stands for a failure. -/
  | failure (name message : String)
  /-- A variable under another name and perhaps with another specifier. -/
  | renamed (inner : Variable ν) (name : String) (spec : Option String)
  /-- A variable shown by its rule. -/
  | ruled (inner : Variable ν)
  /-- A variable shown as one of its children. -/
  | asChild (inner : Variable ν) (index : Nat)
  /-- The row that leads on in the listing kept under an identifier: `size`
  children from `offset`. -/
  | more (listing offset size : Nat)
  /-- The row of a synthetic rule of `owner`, with its text. -/
  | synthetic (owner : Variable ν) (scope : Scope (Variable ν)) (rule : SyntheticRule)
      (text : String)

/-- The texts a variable can be asked for. -/
inductive TextKind where
  /-- The line of text that shows the value. -/
  | value
  /-- The value as a string. -/
  | stringView
deriving Repr, DecidableEq, Inhabited

/-- What a debugger tells about the variables it knows, in a given state. -/
structure Inspector (σ ν : Type) where
  facts : σ → ν → Facts
  /-- What a pointer or reference leads to. -/
  pointee? : σ → ν → Option ν
  /-- A copy that no longer changes, with a specifier; none if the variable
  never changes. -/
  snapshot? : σ → ν → String → Option ν
  /-- The debugger's own text for a variable. -/
  text : σ → TextKind → ν → String
  mightHaveChildren : σ → ν → Bool
  children : σ → ν → List ν

namespace Variable

variable {σ ν : Type}

/-- The name of the rows of failed elements. -/
def errorName : String := "<Error>"

/-- The name of the rows of failed optional elements. -/
def warningName : String := "<Warning>"

/-- The name of the row of the raw value. -/
def rawViewName : String := "[Raw View]"

/-- The name of the row that leads to the next page. -/
def moreName : String := "[More]"

/-- A row of an error. -/
def error (message : String) : Variable ν := failure errorName message

/-- A row of a warning. -/
def warning (message : String) : Variable ν := failure warningName message

/-- The text of a row that gives the reason of a failure. -/
def failureText (reason : String) : String := errorName ++ " Reason: " ++ reason

/-- The text of a row that gives the reason of a warning. -/
def warningText (reason : String) : String := warningName ++ " Reason: " ++ reason

/-- What is known of a variable. -/
def facts (d : Inspector σ ν) (s : σ) : Variable ν → Facts
  | debugger handle => d.facts s handle
  | failure name message =>
    { name, typeName := "", isTruthy := false, error := some message, hierarchy := [] }
  | renamed inner name spec =>
    let f := inner.facts d s
    { f with name, spec := spec.getD f.spec }
  | ruled inner => inner.facts d s
  | asChild inner _ => inner.facts d s
  | more .. => { name := moreName, typeName := "", isTruthy := true, hierarchy := [] }
  | synthetic owner _ rule _ =>
    let f := owner.facts d s
    { name := rule.name, typeName := f.typeName, spec := f.spec, isTruthy := f.isTruthy,
      hierarchy := f.hierarchy }

/-- The handle a variable stands for, if the debugger knows it. -/
def handle? : Variable ν → Option ν
  | debugger handle => some handle
  | renamed inner .. => inner.handle?
  | ruled inner => inner.handle?
  | asChild inner _ => inner.handle?
  | _ => none

/-- What a pointer or reference leads to. -/
def pointee? (d : Inspector σ ν) (s : σ) (v : Variable ν) : Option ν :=
  v.handle?.bind (d.pointee? s)

/-- Whether the variable is a pointer or a reference. -/
def isIndirect (d : Inspector σ ν) (s : σ) (v : Variable ν) : Bool :=
  let f := v.facts d s
  f.isPointer || f.isReference

/-- What a pointer or reference leads to, or else the variable itself. -/
def followed (d : Inspector σ ν) (s : σ) (v : Variable ν) : Variable ν :=
  if v.isIndirect d s then ((v.pointee? d s).map debugger).getD v else v

/-- The row of the raw value: the variable with a raw mark before its
specifier. -/
def rawView (d : Inspector σ ν) (s : σ) (v : Variable ν) : Variable ν :=
  let spec := String.ofList (Specifier.withoutRaw (v.facts d s).spec)
  renamed v rawViewName (some (Specifier.rawMark ++ spec))

/-- The variable shown by its rule. A raw variable and a failed one are left
as they are, and an `expand(N)` specifier shows the child it names. -/
def decorated (d : Inspector σ ν) (s : σ) (v : Variable ν) : Variable ν :=
  let f := v.facts d s
  if Specifier.isRaw f.spec || f.error.isSome then v
  else
    match Specifier.expandIndex? f.spec with
    | some index => asChild (ruled v) index
    | none => ruled v

end Variable

end WatchView
