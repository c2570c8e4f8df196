/-!
# Identifiers

An identifier starts with a letter, an underscore or a dollar sign and goes
on with these and digits, all of them ASCII. A word, the unit in which the
built-in type names are spelled, has no dollar sign.
-/

namespace WatchView

namespace Text

/-- Characters an identifier starts with. -/
def isIdentStart (c : Char) : Bool := c.isAlpha || c == '_' || c == '$'

/-- Characters an identifier goes on with. -/
def isIdent (c : Char) : Bool := c.isAlphanum || c == '_' || c == '$'

/-- Characters of a word. -/
def isWord (c : Char) : Bool := c.isAlphanum || c == '_'

/-- An identifier goes on with whatever it may start with. -/
theorem isIdent_of_isIdentStart {c : Char} (h : isIdentStart c = true) : isIdent c = true := by
  simp only [isIdentStart, isIdent, Char.isAlphanum, Bool.or_eq_true] at h ⊢
  rcases h with (h | h) | h <;> simp [h]

end Text

end WatchView
