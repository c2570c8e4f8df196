import WatchView.Bindings
import WatchView.Text.Blank
/-!
# Scopes

A scope is what the expressions of a rule see: texts bound to tokens, such
as a type bound to `$T1`, and the scratch variables created so far under
their names. A scope is a value; a rule that binds more for its own use
leaves the scope it started from as it was.
-/

namespace WatchView

/-- Tokens with their texts, scratch names with their variables. -/
structure Scope (V : Type) where
  /-- The text each token is replaced by. -/
  tokens : Bindings String := {}
  /-- The scratch variables by name. -/
  scratch : Bindings V := {}

namespace Scope

variable {V : Type}

instance : Inhabited (Scope V) := ⟨{}⟩

/-- The scope with the tokens of a list bound to texts. -/
def ofTokens (tokens : List (String × String)) : Scope V where
  tokens := tokens.foldl (fun b p => b.bind p.1 p.2) .empty

/-- The text a token is bound to. -/
def token? (s : Scope V) (token : String) : Option String := s.tokens.get? token

/-- Bind a token to a text. -/
def bindToken (s : Scope V) (token text : String) : Scope V :=
  { s with tokens := s.tokens.bind token text }

/-- Record a scratch variable. -/
def addScratch (s : Scope V) (name : String) (value : V) : Scope V :=
  { s with scratch := s.scratch.bind name value }

/-- Whether an expression is the name of a scratch variable and nothing
else, blanks aside. -/
def isScratchName (s : Scope V) (expression : String) : Bool :=
  s.scratch.contains (Text.trimmed expression)

end Scope

end WatchView
