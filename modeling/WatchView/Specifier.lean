import WatchView.Text.Blank
import WatchView.Text.Cut
import WatchView.Text.Identifier
import WatchView.Text.Numeral
/-!
# Format specifiers

A format specifier tells how a value is to be shown. It is a text of one of
three shapes:

    [size] ["!" | "!!"] [base]     as in x, 10s, 0x20, [count]!s32
    ["!" | "!!"] view(NAME)        shows the value in the view NAME
    ["!" | "!!"] expand(N)         shows the N-th child in place of the value

A size is a positive decimal number, a number in lower-case hexadecimal
after `0x`, or any text in square brackets. The mark `!` asks for the raw
value, shown without rules, and `!!` asks the same for its children too.

Each function reads one thing off the text. None of them requires the text
to be valid; `isValid` says what may follow the comma of a watch expression.
-/

namespace WatchView

namespace Specifier

open Text

/-- The mark of a raw value. -/
def rawMark : String := "!"

/-- The base formats a debugger knows how to render. -/
def baseFormats : List String :=
  [ "", "a", "b", "B", "c", "C", "d", "en", "E", "f", "F", "h", "H", "i", "I", "o", "O", "p",
    "u", "U", "U32", "x", "X", "y", "Y", "s", "sb", "s8", "s8b", "su", "sub", "s32", "s32b",
    "xb", "hb", "Hb", "Xb", "bb", "vf32", "vf64", "bstr", "e", "g", "l", "env", "hr", "hv",
    "m", "ma", "mb", "md", "mq", "mu", "mw", "na", "nd", "n", "nr", "nvo", "wc", "wm" ]

/-- The three parts of a specifier of the first shape. -/
structure Parts where
  /-- The size, as written. -/
  size : List Char
  /-- The raw mark, as written. -/
  raw : List Char
  /-- The base format. -/
  base : List Char
deriving Repr, DecidableEq, Inhabited

/-- The digits of a hexadecimal size. -/
def isHexDigit (c : Char) : Bool := c.isDigit || ('a' ≤ c && c ≤ 'f')

/-- The size at the start of a text, and what follows it. -/
def cutSize (cs : List Char) : List Char × List Char :=
  match cs with
  | '[' :: _ => (cutAfterLast? ']' cs).getD ([], cs)
  | '0' :: 'x' :: digits =>
    let taken := digits.takeWhile isHexDigit
    if taken.isEmpty then ([], cs) else ('0' :: 'x' :: taken, digits.dropWhile isHexDigit)
  | c :: _ =>
    if '1' ≤ c ∧ c ≤ '9' then (cs.takeWhile Char.isDigit, cs.dropWhile Char.isDigit) else ([], cs)
  | [] => ([], [])

/-- The raw mark at the start of a text, and what follows it. -/
def cutRaw : List Char → List Char × List Char
  | '!' :: '!' :: cs => (['!', '!'], cs)
  | '!' :: cs => (['!'], cs)
  | cs => ([], cs)

/-- Whether a text is empty or a letter followed by letters and digits. -/
def isBaseShape : List Char → Bool
  | [] => true
  | c :: cs => c.isAlpha && cs.all Char.isAlphanum

/-- The parts of a specifier of the first shape. -/
def parts? (s : String) : Option Parts :=
  let (size, behind) := cutSize (trim s.toList)
  let (raw, base) := cutRaw behind
  if isBaseShape base then some ⟨size, raw, base⟩ else none

/-- The specifier without the raw mark in front. -/
def withoutRaw (s : String) : List Char := (cutRaw (trim s.toList)).2

/-- Whether the specifier asks for the raw value. -/
def isRaw (s : String) : Bool :=
  match parts? s with
  | some parts => !parts.raw.isEmpty
  | none => (trim s.toList).head? == some '!'

/-- The positive number a literal size denotes. -/
def literalSize? (s : List Char) : Option Nat :=
  let n? :=
    match dropHead? "0x".toList s with
    | some digits => numeral? 16 bound32 digits
    | none => numeral? 10 bound32 s
  n?.filter (0 < ·)

/-- Whether a text may follow a size in brackets. -/
def isSizeSuffix (s : String) : Bool := baseFormats.contains (String.ofList (withoutRaw s))

/-- The text in the parentheses of `function(...)`, with blanks allowed
before the opening one. -/
def argumentOf? (function : String) (cs : List Char) : Option (List Char) := do
  let cs ← dropHead? function.toList cs
  let cs ← dropHead? ['('] (trimStart cs)
  dropTail? [')'] cs

/-- The name of the view the specifier selects. -/
def viewName? (s : String) : Option String := do
  let name := trim (← argumentOf? "view" (withoutRaw s))
  if !name.isEmpty && name.all isIdent then some (String.ofList name) else none

/-- The index of the child the specifier selects. -/
def expandIndex? (s : String) : Option Nat := do
  let index ← argumentOf? "expand" (withoutRaw s)
  numeral? 10 bound64 (trim index)

/-- Whether the text may follow the comma of a watch expression. -/
def isValid (s : String) : Bool :=
  if isBlankText s then false
  else if (expandIndex? s).isSome || (viewName? s).isSome then true
  else
    match parts? s with
    | none => false
    | some ⟨size, _, base⟩ =>
      baseFormats.contains (String.ofList base) &&
        (size.isEmpty || size.head? == some '[' || (literalSize? size).isSome)

/-! ## Views

Rules name the views they are meant for in lists with semicolons. A rule
with an include list shows only in the views of the list, a rule with an
exclude list shows in all views but those. A blank list is no list. A value
without a view specifier is in the view named by the empty text. -/

/-- Whether a list of views names the view. -/
def listsView (views : String) (view : String) : Bool :=
  (splitAt ';' views.toList).any fun entry => String.ofList (trim entry) == view

/-- A list of views, if it is not blank. -/
def viewList? (views : Option String) : Option String := views.filter fun v => !isBlankText v

/-- Whether a rule with these lists of views shows for a value with the
specifier `s`. -/
def admitsView (s : String) (included excluded : Option String) : Bool :=
  let view := (viewName? s).getD ""
  (viewList? included).all (listsView · view) && !(viewList? excluded).any (listsView · view)

end Specifier

end WatchView
