import WatchView.Specifier
/-!
# Watch expressions

A watch expression is a value, as in `data`, optionally followed by a comma
and a format specifier, as in `data,[count]x`. The split is textual: what
follows the last comma is a specifier only if it is a valid one, so the
commas of `foo(1, 2)` split nothing.

A size in brackets is an expression of its own. It is held apart as a
pending size until someone evaluates it and puts the number in its place.
The pending size is shorter than the text it was read from
(`length_pending_lt`), so sizes nested in sizes come to an end.
-/

namespace WatchView

open Text

/-- The specifier of a watch expression. -/
inductive FormatSpec where
  /-- A specifier as written; the empty text is no specifier. -/
  | plain (text : String)
  /-- A size still to be evaluated, and what follows its bracket. -/
  | pending (size suffix : String)
  /-- A size put in place of a pending one. -/
  | sized (size : Nat) (suffix : String)
deriving Repr, DecidableEq, Inhabited

namespace FormatSpec

/-- No specifier. -/
def none : FormatSpec := plain ""

/-- The specifier as text. -/
def text : FormatSpec → String
  | plain text => text
  | pending size suffix => "[" ++ size ++ "]" ++ suffix
  | sized size suffix => "[" ++ toString size ++ "]" ++ suffix

/-- What follows the bracket of the size. -/
def suffix : FormatSpec → String
  | plain _ => ""
  | pending _ suffix => suffix
  | sized _ suffix => suffix

/-- The size still to be evaluated. -/
def pendingSize? : FormatSpec → Option String
  | pending size _ => some size
  | _ => Option.none

/-- The evaluated size. -/
def size? : FormatSpec → Option Nat
  | sized size _ => some size
  | _ => Option.none

/-- Whether there is no specifier. -/
def isEmpty (f : FormatSpec) : Bool := f.text.isEmpty

/-- The specifier with the size `n`. -/
def withSize (f : FormatSpec) (n : Nat) : FormatSpec := sized n f.suffix

end FormatSpec

/-- A value with a format specifier. -/
structure WatchExpr where
  /-- The value. -/
  value : String
  /-- The specifier. -/
  spec : FormatSpec := .none
deriving Repr, DecidableEq, Inhabited

namespace WatchExpr

/-- The expression as text. -/
def display (e : WatchExpr) : String :=
  if e.spec.isEmpty then e.value else e.value ++ "," ++ e.spec.text

/-- The expression with another value. -/
def withValue (e : WatchExpr) (value : String) : WatchExpr := { e with value := value }

/-! ## The bracket of a size -/

/-- The state of a walk over a text that pairs its square brackets. -/
structure BracketScan where
  /-- The number of characters read. -/
  position : Nat := 0
  /-- The positions of the brackets still open, the innermost first. -/
  opened : List Nat := []
  /-- The quote of the literal the walk is in. -/
  quote : Option Char := none
  /-- Whether the next character of the literal is escaped. -/
  escaped : Bool := false
  /-- The position of the bracket that was closed last. -/
  lastClosed : Option Nat := none
deriving Repr, DecidableEq, Inhabited

/-- Read one character; a bracket closed without being open ends the walk. -/
def BracketScan.step (s : BracketScan) (c : Char) : Option BracketScan :=
  let next := { s with position := s.position + 1 }
  match s.quote with
  | some q =>
    if s.escaped then some { next with escaped := false }
    else if c = '\\' then some { next with escaped := true }
    else if c = q then some { next with quote := none }
    else some next
  | none =>
    if c = '"' ∨ c = '\'' then some { next with quote := some c }
    else if c = '[' then some { next with opened := s.position :: s.opened }
    else if c = ']' then
      match s.opened with
      | [] => none
      | p :: ps => some { next with opened := ps, lastClosed := some p }
    else some next

/-- The position of the bracket that the last one of a text closes. Brackets
in string and character literals do not count, and every bracket has to be
closed. -/
def openingBracket? (cs : List Char) : Option Nat := do
  let s ← cs.foldlM BracketScan.step {}
  if s.quote.isSome || !s.opened.isEmpty || cs.getLast? != some ']' then none else s.lastClosed

/-! ## Reading -/

/-- The text without surrounding blanks and without one comma at its end. -/
def prepare (s : String) : List Char :=
  let cs := trim s.toList
  (dropTail? [','] cs).getD cs

/-- A value without specifier. -/
def bare (cs : List Char) : WatchExpr := { value := String.ofList cs }

/-- Read `value,[size]suffix`, given the text up to the closing bracket. -/
def readSized (cs upToBracket suffix : List Char) : WatchExpr :=
  match openingBracket? upToBracket with
  | none => bare cs
  | some start =>
    match dropTail? [','] (trim (upToBracket.take start)) with
    | none => bare cs
    | some value =>
      let size := (upToBracket.drop (start + 1)).dropLast
      { value := String.ofList (trim value),
        spec := .pending (String.ofList size) (String.ofList suffix) }

/-- Read `value,specifier`, split at the last comma. -/
def readPlain (cs : List Char) : WatchExpr :=
  match cutAfterLast? ',' cs with
  | none => bare cs
  | some (upToComma, behind) =>
    let value := upToComma.dropLast
    let spec := String.ofList (trim behind)
    if !value.isEmpty && Specifier.isValid spec then
      { value := String.ofList (trimEnd value), spec := .plain spec }
    else bare cs

/-- Read a watch expression. If what follows the last closing bracket may
follow a size, the brackets are taken for a size. -/
def parse (s : String) : WatchExpr :=
  let cs := prepare s
  match cutAfterLast? ']' cs with
  | some (upToBracket, suffix) =>
    if Specifier.isSizeSuffix (String.ofList suffix) then readSized cs upToBracket suffix
    else readPlain cs
  | none => readPlain cs

/-! ## Pending sizes get shorter -/

/-- What precedes a known tail is shorter by the tail. -/
theorem length_of_dropTail? {tail cs rest : List Char} (h : dropTail? tail cs = some rest) :
    cs.length = rest.length + tail.length := by
  simp only [dropTail?, Option.map_eq_some_iff] at h
  obtain ⟨r, hr, rfl⟩ := h
  have := congrArg List.length (eq_append_of_dropHead? hr)
  simp only [List.length_reverse, List.length_append] at this ⊢
  omega

/-- A text is prepared by removing characters. -/
theorem length_prepare_le (s : String) : (prepare s).length ≤ s.length := by
  have ht := length_trim_le s.toList
  rw [String.length_toList] at ht
  unfold prepare
  cases h : dropTail? [','] (trim s.toList) with
  | none => simpa [h] using ht
  | some r =>
    have := length_of_dropTail? h
    simp only [h, Option.getD_some, List.length_cons, List.length_nil] at this ⊢
    omega

/-- The pending size is shorter than the text in front of its suffix. -/
theorem length_readSized_pending_lt {cs upToBracket behind : List Char} {size suffix : String}
    (h : (readSized cs upToBracket behind).spec = .pending size suffix) :
    size.length < upToBracket.length := by
  unfold readSized at h
  split at h
  · cases h
  · rename_i start _
    split at h
    · cases h
    · rename_i value hv
      obtain ⟨rfl, rfl⟩ := FormatSpec.pending.inj h
      have hvalue := length_of_dropTail? hv
      have htrim := length_trim_le (upToBracket.take start)
      simp only [List.length_take, List.length_cons, List.length_nil] at hvalue htrim
      simp only [String.length_ofList, List.length_dropLast, List.length_drop]
      omega

/-- A value split at a comma has no pending size. -/
theorem spec_readPlain_ne_pending (cs : List Char) (size suffix : String) :
    (readPlain cs).spec ≠ .pending size suffix := by
  unfold readPlain
  split
  · simp [bare, FormatSpec.none]
  · dsimp only
    split <;> simp [bare, FormatSpec.none]

/-- **A pending size is shorter than the text it was read from.** -/
theorem length_pending_lt {s size suffix : String}
    (h : (parse s).spec = .pending size suffix) : size.length < s.length := by
  have hp := length_prepare_le s
  simp only [parse] at h
  split at h
  · rename_i upTo behind hcut
    split at h
    · have hlen := congrArg List.length (append_of_cutAfterLast? hcut)
      have := length_readSized_pending_lt h
      simp only [List.length_append] at hlen
      omega
    · exact absurd h (spec_readPlain_ne_pending _ _ _)
  · exact absurd h (spec_readPlain_ne_pending _ _ _)

end WatchExpr

end WatchView
