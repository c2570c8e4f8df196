import WatchView.Session
/-!
# A debugger with one variable

The smallest debugger there is: all expressions evaluate to its one variable,
which has no children. It serves to show that what the theorems assume can be
had.
-/

namespace WatchView.OneVariable

/-- The debugger: it has no state and one handle. -/
def debugger : Debugger Unit Unit where
  facts _ _ := { name := "it", typeName := "It", isTruthy := true, hierarchy := [] }
  pointee? _ _ := none
  snapshot? _ _ _ := none
  text _ _ _ := "it"
  mightHaveChildren _ _ := false
  children _ _ := []
  fast _ _ _ _ := pure (.ok ())
  full _ _ _ := pure (.ok ())
  path _ _ := pure (some ())

/-- The variable. -/
def it : Variable Unit := .debugger ()

/-- The variable under the name of a position. -/
def named (name : String) : Variable Unit := .renamed it name none

/-- Expressions are seen from the variable. -/
def context : Context Unit := ⟨it, {}⟩

/-- The engine with the default options. -/
def engine : Engine Unit Unit := ⟨debugger, {}⟩

/-- A session in which these listings are kept. -/
def session (listings : Array (Listing Unit)) : Session Unit Unit where
  target := ()
  book := { catalogue := {} }
  listings := listings

end WatchView.OneVariable
