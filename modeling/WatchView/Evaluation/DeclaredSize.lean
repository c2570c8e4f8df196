import WatchView.Evaluation.ExpandError
/-!
# Declared sizes

An expansion declares the number of its children by a list of guarded
expressions, of which the first that applies counts. Those that fail are
passed over if they are optional. The value has to be a number below 2³² in
the debugger's text for it: decimal, or hexadecimal after `0x`.
-/

namespace WatchView

namespace Evaluator

open Text

/-- The number a text shows. -/
def shownNumber? (text : String) : Option Nat :=
  let cs := trim text.toList
  match (dropHead? "0x".toList cs).or (dropHead? "0X".toList cs) with
  | some digits => numeral? 16 bound32 digits
  | none => numeral? 10 bound32 ((dropHead? ['+'] cs).getD cs)

variable {σ ν : Type}

/-- The number of one size, none if it does not apply. -/
def sizeValue (ev : Evaluator σ ν) (size : GuardedText) (v : Variable ν)
    (scope : Scope (Variable ν)) : StateM σ (Except EvalError (Option Nat)) := do
  match ← ev.applies size.guard v scope with
  | .error e => pure (.error e)
  | .ok false => pure (.ok none)
  | .ok true =>
    if size.value.isEmpty then pure (.error (.badSize "The expression cannot be empty."))
    else
      match ← ev.evaluate size.value v scope none with
      | .error e => pure (.error e)
      | .ok answer =>
        let text := answer.text ev.debugger.toInspector (← get) .value
        match shownNumber? text with
        | some n => pure (.ok (some n))
        | none =>
          pure (.error (.badSize ("The expression's value was not a number. Expression='" ++
            size.value ++ "' Value='" ++ text ++ "'")))

/-- The number of the first size that applies. -/
def declaredSize (ev : Evaluator σ ν) (v : Variable ν) (scope : Scope (Variable ν)) :
    List GuardedText → StateM σ (Except ExpandError Nat)
  | [] => pure (.error .noSize)
  | size :: sizes => do
    match ← ev.sizeValue size v scope with
    | .ok (some n) => pure (.ok n)
    | .ok none => ev.declaredSize v scope sizes
    | .error e =>
      if size.guard.optional then ev.declaredSize v scope sizes else pure (.error (.evaluation e))

end Evaluator

end WatchView
