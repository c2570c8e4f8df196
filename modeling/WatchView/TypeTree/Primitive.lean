import WatchView.Text.Blank
import WatchView.Text.Cut
import WatchView.Text.Identifier
/-!
# Built-in type names

The built-in types are spelled by rows of words: `unsigned long long`,
`long double`. A table lists the spellings in order, and the first one that
agrees with the leading words of a text is taken, even where a later one
would take more words. The vector extension of `unsigned char` is a spelling
of its own and goes before the table.
-/

namespace WatchView

namespace Primitive

open Text

/-- The signs. -/
def sign : List String := ["signed", "unsigned"]

/-- The spellings in order; each place of a spelling admits the words listed
for it. -/
def spellings : List (List (List String)) :=
  [ [["long"], ["double"]],
    [["double"]],
    [["long"], ["float"]],
    [["float"]],
    [["char16_t", "char32_t", "wchar_t"]],
    [["int8_t", "int16_t", "int32_t", "int64_t", "uint8_t", "uint16_t", "uint32_t", "uint64_t"]],
    [["bool", "void"]],
    -- an `int`, with a sign, a length or both
    [sign, ["int"]],
    [sign, ["long"], ["long"], ["int"]],
    [sign, ["long"], ["int"]],
    [["long"], ["long"], ["int"]],
    [["long"], ["int"]],
    [["int"]],
    [sign, ["long"], ["long"]],
    [sign, ["long"]],
    [["long"], ["long"]],
    [["long"]],
    [sign, ["short"], ["int"]],
    [sign, ["short"]],
    [["short"], ["int"]],
    [["short"]],
    [sign, ["char"]],
    [["char"]],
    [sign] ]

/-- Up to `n` words at the start of a text, with blanks between them; each
comes with the text behind it. -/
def leadingWords : Nat → List Char → List (String × List Char)
  | 0, _ => []
  | n + 1, cs =>
    let word := cs.takeWhile isWord
    let behind := cs.dropWhile isWord
    if word.isEmpty then []
    else
      (String.ofList word, behind) ::
        if behind.head?.any isBlank then leadingWords n (trimStart behind) else []

/-- What follows the words of `spelling`, if they are the leading words. -/
def behindSpelling? : List (List String) → List (String × List Char) → Option (List Char)
  | [], _ => none
  | _ :: _, [] => none
  | [choices], (word, behind) :: _ => if choices.contains word then some behind else none
  | choices :: more, (word, _) :: words =>
    if choices.contains word then behindSpelling? more words else none

/-- What follows one blank. -/
def dropBlank? : List Char → Option (List Char)
  | [] => none
  | c :: cs => if isBlank c then some cs else none

/-- What follows `unsigned char __attribute__((ext_vector_type(N)))`, with
exactly one blank between its three parts. -/
def behindVector? (cs : List Char) : Option (List Char) := do
  let cs ← dropHead? "unsigned".toList cs
  let cs ← dropBlank? cs
  let cs ← dropHead? "char".toList cs
  let cs ← dropBlank? cs
  let cs ← dropHead? "__attribute__((ext_vector_type(".toList cs
  if cs.head?.any Char.isDigit then
    dropHead? ")))".toList (cs.dropWhile Char.isDigit)
  else none

/-- What follows the built-in type name at the start of a text. -/
def behind? (cs : List Char) : Option (List Char) :=
  (behindVector? cs).or
    (spellings.findSome? fun spelling => behindSpelling? spelling (leadingWords 4 cs))

/-- The built-in type name at the start of a text, and what follows it. A
dollar sign right after it makes it an identifier instead. -/
def read? (cs : List Char) : Option (String × List Char) := do
  let behind ← behind? cs
  if behind.head? = some '$' then none
  else some (String.ofList (readPart cs behind), behind)

end Primitive

end WatchView
