import WatchView.Evaluation.DeclaredSize
import WatchView.Listing.Basic
/-!
# Elements of an expansion

Every element of an expansion is settled in the same way. Its guard is
looked at first: an element that does not apply has no children. One that
applies is counted. If the guard or the count fails, an optional element has
no children and any other has one row that says why.

Rows are made when a window asks for them, one by one, and kept.
-/

namespace WatchView

variable {σ ν : Type}

namespace Standing

/-- The standing of a guarded element with the result of its count. -/
def ofResult (guard : Guard) : Except ExpandError Nat → Standing ν
  | .ok n => counted n
  | .error e =>
    if guard.optional then counted 0 else failed (.error (Variable.failureText e.message))

/-- Settle an element: ask whether it applies, and count it if so. -/
def settle {m : Type → Type} [Monad m] {α : Type} (guard : Guard)
    (applies : m (Except EvalError Bool)) (count : α → m (Except ExpandError Nat × α)) (l : α) :
    m (Standing ν × α) := do
  match ← applies with
  | .error e => pure (ofResult guard (.error (.evaluation e)), l)
  | .ok false => pure (counted 0, l)
  | .ok true =>
    let (result, l) ← count l
    pure (ofResult guard result, l)

end Standing

/-- Whether a guarded element applies in a context. -/
def Context.applies (ev : Evaluator σ ν) (c : Context ν) (guard : Guard) :
    StateM σ (Except EvalError Bool) :=
  ev.applies guard c.owner c.scope

/-- Whether a condition holds in a context. -/
def Context.holds (ev : Evaluator σ ν) (c : Context ν) (condition : Option String) :
    StateM σ (Except EvalError Bool) :=
  ev.holds condition c.owner c.scope

/-- The row of an expression, shown by its rule. -/
def Context.row (ev : Evaluator σ ν) (c : Context ν) (expression name : String) :
    StateM σ (Variable ν) := do
  let v ← ev.evaluateRow expression c.owner c.scope name
  return v.decorated ev.debugger.toInspector (← get)

/-- The rows at given positions. A row that was not kept is made and kept. -/
def Kept.rowsAt {m : Type → Type} [Monad m] (make : Nat → m (Variable ν)) :
    List Nat → Kept ν → m (List (Variable ν) × Kept ν)
  | [], kept => pure ([], kept)
  | i :: is, kept => do
    match kept.row? i with
    | some row =>
      let (rows, kept) ← rowsAt make is kept
      pure (row :: rows, kept)
    | none =>
      let row ← make i
      let (rows, kept) ← rowsAt make is ((i, row) :: kept)
      pure (row :: rows, kept)

/-- The name of the row at a position. -/
def positionName (index : Nat) : String := "[" ++ toString index ++ "]"

end WatchView
