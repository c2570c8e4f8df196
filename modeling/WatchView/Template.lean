import WatchView.Text.Blank
/-!
# Templates

A template is literal text with expressions in braces, as in
`size={count}`. A brace of the text is written twice. Reading forgives:
a closing brace that stands alone is a brace of the text, and an opening
brace that is never closed is left out. Inside an expression an opening
brace is a character like any other.

Reading goes in two steps. `scan` takes the text apart into characters and
expressions, and `assemble` joins neighbouring characters.
-/

namespace WatchView

namespace Template

/-- A piece of a template. -/
inductive Part where
  /-- Text shown as it is. -/
  | literal (text : List Char)
  /-- An expression to be evaluated. -/
  | placeholder (expression : List Char)
deriving Repr, DecidableEq, Inhabited

/-- A character or an expression of a template. -/
inductive Mark where
  | char (c : Char)
  | hole (expression : List Char)
deriving Repr, DecidableEq, Inhabited

/-- The marks of a text. The first argument is the expression the scan is
in, last character first. -/
def scan : Option (List Char) → List Char → List Mark
  | _, [] => []
  | some read, c :: cs =>
    if c = '\x7d' then .hole read.reverse :: scan none cs else scan (some (c :: read)) cs
  | none, '\x7b' :: '\x7b' :: cs => .char '\x7b' :: scan none cs
  | none, '\x7d' :: '\x7d' :: cs => .char '\x7d' :: scan none cs
  | none, c :: cs =>
    if c = '\x7b' then
      if '\x7d' ∈ cs then scan (some []) cs else scan none cs
    else .char c :: scan none cs

/-- Join neighbouring characters. -/
def assemble : List Mark → List Part
  | [] => []
  | .hole expression :: marks => .placeholder expression :: assemble marks
  | .char c :: marks =>
    match assemble marks with
    | .literal text :: parts => .literal (c :: text) :: parts
    | parts => .literal [c] :: parts

/-- The pieces of a template, in order. -/
def parts (s : String) : List Part := assemble (scan none s.toList)

end Template

end WatchView
