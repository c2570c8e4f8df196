import WatchView.Text.Blank
import WatchView.Text.Cut
import WatchView.Text.Identifier
/-!
# Cursors

A cursor walks forward over a text. It holds the text, what is still to be
read of it, and the byte offset it stands at; the last two move together,
by the bytes of the characters read. Copying a cursor saves a position to
come back to.
-/

namespace WatchView

/-- A position in a text. -/
structure Cursor where
  /-- The whole text. -/
  source : List Char
  /-- What is still to be read. -/
  rest : List Char
  /-- The number of bytes read. -/
  offset : Nat
deriving Repr, DecidableEq, Inhabited

namespace Cursor

open Text

/-- A cursor at the start of a text. -/
def ofString (s : String) : Cursor := ⟨s.toList, s.toList, 0⟩

/-- Whether everything is read. -/
def isAtEnd (c : Cursor) : Bool := c.rest.isEmpty

/-- The next character. -/
def peek? (c : Cursor) : Option Char := c.rest.head?

/-- The character `n` places ahead; the next one is at place zero. -/
def peekNth? (c : Cursor) (n : Nat) : Option Char := c.rest[n]?

/-- Whether there is a next character and it satisfies `p`. -/
def check (c : Cursor) (p : Char → Bool) : Bool := c.peek?.any p

/-- Whether the text goes on with `s`. -/
def checkText (c : Cursor) (s : String) : Bool := hasHead s.toList c.rest

/-- Read one character, if there is one. -/
def advance (c : Cursor) : Option Char × Cursor :=
  match c.rest with
  | [] => (none, c)
  | d :: ds => (some d, { c with rest := ds, offset := c.offset + d.utf8Size })

/-- Read the character `d`, if it comes next. -/
def eat (c : Cursor) (d : Char) : Bool × Cursor :=
  if c.peek? = some d then (true, c.advance.2) else (false, c)

/-- Read the text `s`, if it comes next. -/
def eatText (c : Cursor) (s : String) : Bool × Cursor :=
  match dropHead? s.toList c.rest with
  | some rest => (true, { c with rest := rest, offset := c.offset + s.utf8ByteSize })
  | none => (false, c)

/-- Read the word `s`, if it comes next and no identifier goes on after it. -/
def eatKeyword (c : Cursor) (s : String) : Bool × Cursor :=
  match dropHead? s.toList c.rest with
  | some rest => if rest.head?.any isIdent then (false, c) else c.eatText s
  | none => (false, c)

/-! ## Slices -/

/-- The first `n` bytes of a text and what is behind them, if they are whole
characters. -/
def cutBytes? : List Char → Nat → Option (List Char × List Char)
  | cs, 0 => some ([], cs)
  | [], _ + 1 => none
  | c :: cs, n + 1 =>
    if c.utf8Size ≤ n + 1 then
      (cutBytes? cs (n + 1 - c.utf8Size)).map fun (front, behind) => (c :: front, behind)
    else none

/-- The text between the byte offset `start` and the cursor, if both are
boundaries of characters and `start` is not behind the cursor. -/
def sliceFrom? (c : Cursor) (start : Nat) : Option (List Char) :=
  if start ≤ c.offset then do
    let (_, behind) ← cutBytes? c.source start
    let (front, _) ← cutBytes? behind (c.offset - start)
    some front
  else none

/-! ## Reading on -/

/-- A character that is there is taken off the rest. -/
theorem length_rest_advance_lt {c : Cursor} {p : Char → Bool} (h : c.check p = true) :
    c.advance.2.rest.length < c.rest.length := by
  obtain ⟨source, rest, offset⟩ := c
  cases rest with
  | nil => simp [check, peek?] at h
  | cons d ds => simp [advance]

/-- The cursor behind the characters that satisfy `p`. -/
def advanceWhile (p : Char → Bool) (c : Cursor) : Cursor :=
  if c.check p = true then c.advance.2.advanceWhile p else c
termination_by c.rest.length
decreasing_by exact length_rest_advance_lt ‹_›

/-- Read characters as long as they satisfy `p`; the answer is what was
read, cut out of the text. -/
def eatWhile (c : Cursor) (p : Char → Bool) : List Char × Cursor :=
  let behind := c.advanceWhile p
  ((behind.sliceFrom? c.offset).getD [], behind)

/-- Read blanks. -/
def skipBlanks (c : Cursor) : Cursor := (c.eatWhile isBlank).2

end Cursor

end WatchView
