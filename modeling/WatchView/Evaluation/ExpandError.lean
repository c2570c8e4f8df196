import WatchView.Evaluation.Evaluator
/-!
# Failures of expansion

An element of an expansion fails because an expression of it failed, because
a part it requires is missing, or because it asks for something unknown.
-/

namespace WatchView

/-- Why an element of an expansion lists no children. -/
inductive ExpandError where
  /-- An expression failed. -/
  | evaluation (error : EvalError)
  /-- A required part is missing or blank. -/
  | missing (part : String)
  /-- No size applies. -/
  | noSize
  /-- A further branch has no conditional in front. -/
  | strayBranch
  /-- An instruction is unknown. -/
  | unknownInstruction (element : String)
deriving Repr, DecidableEq, Inhabited

/-- The error in words. -/
def ExpandError.message : ExpandError → String
  | evaluation error => error.message
  | missing part => s!"No valid <{part}> found."
  | noSize => "Valid <Size> node not found."
  | strayBranch => "<If> must be the first instruction in the conditional blocks sequence"
  | unknownInstruction element => s!"<{element}> is not supported in <CustomListItems>."

end WatchView
