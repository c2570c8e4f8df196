/-!
# Cutting texts

Ways to take a text apart at a known piece: at its head, at its tail, at
the last occurrence of a character, at every separator. Each leaves the
pieces in order, so the text is their concatenation.
-/

namespace WatchView

namespace Text

/-- What follows `head` in a text that starts with it. -/
def dropHead? : List Char → List Char → Option (List Char)
  | [], cs => some cs
  | _ :: _, [] => none
  | h :: hs, c :: cs => if h = c then dropHead? hs cs else none

/-- A text that starts with `head` is `head` and what follows it. -/
theorem eq_append_of_dropHead? {head cs rest : List Char} (h : dropHead? head cs = some rest) :
    cs = head ++ rest := by
  induction head generalizing cs with
  | nil => simpa [dropHead?] using h
  | cons a as ih =>
    cases cs with
    | nil => simp [dropHead?] at h
    | cons c cs =>
      by_cases hac : a = c
      · simp only [dropHead?, hac, if_true] at h
        simp [hac, ih h]
      · simp [dropHead?, hac] at h

/-- What precedes `tail` in a text that ends with it. -/
def dropTail? (tail cs : List Char) : Option (List Char) :=
  (dropHead? tail.reverse cs.reverse).map List.reverse

/-- Whether a text starts with `head`. -/
def hasHead (head cs : List Char) : Bool := (dropHead? head cs).isSome

/-- The text up to and including the last occurrence of `c`, and the text
behind it. -/
def cutAfterLast? (c : Char) : List Char → Option (List Char × List Char)
  | [] => none
  | d :: ds =>
    match cutAfterLast? c ds with
    | some (before, behind) => some (d :: before, behind)
    | none => if d = c then some ([d], ds) else none

/-- The two parts of a cut make up the text. -/
theorem append_of_cutAfterLast? {c : Char} {cs before behind : List Char}
    (h : cutAfterLast? c cs = some (before, behind)) : before ++ behind = cs := by
  induction cs generalizing before behind with
  | nil => simp [cutAfterLast?] at h
  | cons d ds ih =>
    cases hc : cutAfterLast? c ds with
    | some p =>
      obtain ⟨b, e⟩ := p
      simp only [cutAfterLast?, hc, Option.some.injEq, Prod.mk.injEq] at h
      obtain ⟨rfl, rfl⟩ := h
      simp [ih hc]
    | none =>
      by_cases hd : d = c
      · simp only [cutAfterLast?, hc, hd, if_true, Option.some.injEq, Prod.mk.injEq] at h
        obtain ⟨rfl, rfl⟩ := h
        simp [hd]
      · simp [cutAfterLast?, hc, hd] at h

/-- The pieces of a text between the occurrences of a separator; a text
without it is one piece. -/
def splitAt (sep : Char) : List Char → List (List Char)
  | [] => [[]]
  | c :: cs =>
    if c = sep then [] :: splitAt sep cs
    else
      match splitAt sep cs with
      | [] => [[c]]
      | piece :: pieces => (c :: piece) :: pieces

/-- The number of bytes a text takes in UTF-8. -/
def byteLength : List Char → Nat
  | [] => 0
  | c :: cs => c.utf8Size + byteLength cs

/-- Bytes add up along a concatenation. -/
@[simp] theorem byteLength_append (as bs : List Char) :
    byteLength (as ++ bs) = byteLength as + byteLength bs := by
  induction as with
  | nil => simp [byteLength]
  | cons a as ih => simp [byteLength, ih, Nat.add_assoc]

/-- The part of `cs` that was read when `rest` is still to be read. -/
def readPart (cs rest : List Char) : List Char := cs.take (cs.length - rest.length)

/-- What was read is what stands in front of the rest. -/
@[simp] theorem readPart_append (as bs : List Char) : readPart (as ++ bs) bs = as := by
  simp [readPart]

end Text

end WatchView
