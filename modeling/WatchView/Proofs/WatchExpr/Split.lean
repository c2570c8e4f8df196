import Mathlib.Data.List.Basic
import WatchView.Proofs.Specifier
import WatchView.Proofs.WatchExpr.Brackets
/-!
# How a watch expression is split

A prepared text is split in one of two ways (`Splits`): at its last comma, if a
valid specifier without square brackets follows, or at the comma in front of its
last square brackets, if these are a size. `parse_eq_iff` says that reading
splits a text that can be split, in that way, and leaves any other text whole.

What the two ways ask for does not change when the blanks around the comma go.
So an expression, once read, is written and read again without change
(`parse_display`).
-/

namespace WatchView

namespace WatchExpr

open Text

variable {cs : List Char} {s : String} {e : WatchExpr}

/-- **The ways to split a prepared text.** -/
inductive Splits : List Char → WatchExpr → Prop
  /-- At the last comma. -/
  | plain {front behind : List Char} (nonempty : front ≠ []) (noComma : ',' ∉ behind)
      (noBracket : ']' ∉ behind) (valid : Specifier.isValid (String.ofList (trim behind)) = true) :
      Splits (front ++ ',' :: behind)
        ⟨String.ofList (trimEnd front), .plain (String.ofList (trim behind))⟩
  /-- At the comma in front of the last square brackets. -/
  | sized {front value size suffix : List Char} (before : Nested squareBrackets front)
      (inside : Nested squareBrackets size) (comma : trim front = value ++ [','])
      (noBracket : ']' ∉ suffix)
      (isSuffix : Specifier.isSizeSuffix (String.ofList suffix) = true) :
      Splits (front ++ '[' :: size ++ ']' :: suffix)
        ⟨String.ofList (trim value), .pending (String.ofList size) (String.ofList suffix)⟩

theorem not_mem_of_isSizeSuffix {suffix : List Char} {c : Char}
    (h : Specifier.isSizeSuffix (String.ofList suffix) = true)
    (other : Specifier.isFlat c = false) : c ∉ suffix :=
  Specifier.not_mem_of_isFlat other (Specifier.isFlat_of_isSizeSuffix h)

/-! ## Splitting at a size -/

theorem between_brackets (front size : List Char) :
    ((front ++ '[' :: size ++ [']']).drop (front.length + 1)).dropLast = size := by
  rw [List.append_assoc, List.drop_append, List.drop_of_length_le (by omega),
    Nat.add_sub_cancel_left]
  simp

theorem splits_readSized {upToBracket suffix : List Char}
    (cut : cutAfterLast? ']' cs = some (upToBracket, suffix))
    (isSuffix : Specifier.isSizeSuffix (String.ofList suffix) = true) :
    readSized cs upToBracket suffix = bare cs ∨ Splits cs (readSized cs upToBracket suffix) := by
  obtain ⟨noBracket, text, rfl, rfl⟩ := cutAfterLast?_eq_some_iff.mp cut
  unfold readSized
  split
  · exact .inl rfl
  rename_i start found
  split
  · exact .inl rfl
  rename_i value comma
  obtain ⟨front, size, same, rfl, before, inside⟩ := openingBracket?_eq_some_iff.mp found
  obtain ⟨rfl, -⟩ := List.append_inj' same rfl
  rw [List.append_assoc, List.take_left, dropTail?_eq_some_iff] at comma
  rw [between_brackets]
  exact .inr (.sized before inside comma noBracket isSuffix)

/-! ## Splitting at a comma -/

theorem splits_readPlain
    (noSize : ∀ front suffix, cs = front ++ ']' :: suffix →
      Specifier.isSizeSuffix (String.ofList suffix) = false) :
    readPlain cs = bare cs ∨ Splits cs (readPlain cs) := by
  unfold readPlain
  split
  · exact .inl rfl
  rename_i upToComma behind cut
  obtain ⟨noComma, front, rfl, rfl⟩ := cutAfterLast?_eq_some_iff.mp cut
  rw [List.dropLast_concat]
  dsimp only
  split
  · rename_i splits
    obtain ⟨nonempty, valid⟩ := Bool.and_eq_true_iff.mp splits
    refine .inr (.plain (by simpa using nonempty) noComma (fun mem => ?_) valid)
    obtain ⟨front', suffix, rfl, isSuffix⟩ := Specifier.exists_isSizeSuffix_of_mem valid mem
    rw [noSize (front ++ ',' :: front') suffix (by simp)] at isSuffix
    cases isSuffix
  · exact .inl rfl

/-- **Reading splits a text in one of the two ways or leaves it whole.** -/
theorem splits_parse (s : String) : parse s = bare (prepare s) ∨ Splits (prepare s) (parse s) := by
  unfold parse
  dsimp only
  split
  · rename_i upToBracket suffix cut
    split
    · rename_i isSuffix
      exact splits_readSized cut isSuffix
    · rename_i noSuffix
      refine splits_readPlain fun front suffix' same => Bool.eq_false_iff.mpr fun isSuffix => ?_
      have noBracket := not_mem_of_isSizeSuffix isSuffix (c := ']') (by decide)
      rw [cutAfterLast?_eq_some_iff.mpr ⟨noBracket, front, rfl, same⟩] at cut
      obtain ⟨-, rfl⟩ := Prod.mk.inj (Option.some.inj cut)
      exact noSuffix isSuffix
  · rename_i cut
    refine splits_readPlain fun front suffix same => absurd ?_ (cutAfterLast?_eq_none_iff.mp cut)
    simp [same]

/-- **A text that can be split is split so.** -/
theorem parse_of_splits (h : Splits (prepare s) e) : parse s = e := by
  unfold parse
  generalize prepare s = cs at h
  dsimp only
  cases h with
  | @plain front behind nonempty noComma noBracket valid =>
    have atComma : readPlain (front ++ ',' :: behind) =
        ⟨String.ofList (trimEnd front), .plain (String.ofList (trim behind))⟩ := by
      rw [readPlain, cutAfterLast?_eq_some_iff.mpr ⟨noComma, front, rfl, rfl⟩]
      dsimp only
      rw [List.dropLast_concat, valid, if_pos (by simpa using nonempty)]
    split
    · rename_i upToBracket suffix cut
      -- what follows the last bracket has the comma in it
      obtain ⟨-, text, -, same⟩ := cutAfterLast?_eq_some_iff.mp cut
      have comma := mem_of_append_cons_eq same.symm (by decide) noBracket
      rw [if_neg fun isSuffix => not_mem_of_isSizeSuffix isSuffix (by decide) comma, atComma]
    · exact atComma
  | @sized front value size suffix before inside comma noBracket isSuffix =>
    have cut := cutAfterLast?_eq_some_iff.mpr ⟨noBracket, front ++ '[' :: size, rfl, rfl⟩
    have found := openingBracket?_eq_some_iff.mpr ⟨front, size, rfl, rfl, before, inside⟩
    rw [cut]
    dsimp only
    rw [if_pos isSuffix, readSized, found]
    dsimp only
    rw [between_brackets, List.append_assoc, List.take_left, dropTail?_eq_some_iff.mpr comma]

/-- **What a prepared text is read as.** -/
inductive Reads (cs : List Char) : WatchExpr → Prop
  | split {e : WatchExpr} (h : Splits cs e) : Reads cs e
  | whole (h : ∀ e, ¬ Splits cs e) : Reads cs (bare cs)

theorem reads_parse (s : String) : Reads (prepare s) (parse s) := by
  by_cases splits : ∃ e, Splits (prepare s) e
  · obtain ⟨e, h⟩ := splits
    rw [parse_of_splits h]
    exact .split h
  · rw [(splits_parse s).resolve_right fun h => splits ⟨_, h⟩]
    exact .whole fun e h => splits ⟨e, h⟩

/-- **Reading a text gives what it is read as.** -/
theorem parse_eq_iff : parse s = e ↔ Reads (prepare s) e := by
  refine ⟨fun h => h ▸ reads_parse s, fun h => ?_⟩
  cases h with
  | split h => exact parse_of_splits h
  | whole h => exact (splits_parse s).resolve_right (h _)

/-! ## Reading what was read -/

theorem prepare_eq_trim (noComma : (trim s.toList).getLast? ≠ some ',') :
    prepare s = trim s.toList := by
  have noTail : dropTail? [','] (trim s.toList) = none := by
    rw [Option.eq_none_iff_forall_ne_some]
    intro rest tail
    rw [dropTail?_eq_some_iff.mp tail] at noComma
    exact noComma List.getLast?_concat
  rw [prepare, noTail, Option.getD_none]

/-- A text without blanks and commas at its ends is prepared as it is. -/
theorem prepare_append {front back : List Char} (first : (front ++ back).head?.any isBlank = false)
    (nonempty : back ≠ []) (last : back.getLast?.any isBlank = false) (noComma : ',' ∉ back) :
    prepare (String.ofList (front ++ back)) = front ++ back := by
  have trimmed : trim (String.ofList (front ++ back)).toList = front ++ back := by
    rw [String.toList_ofList]
    exact trim_of_noBlank first (getLast?_append_of_ne_nil nonempty last front)
  rw [prepare_eq_trim, trimmed]
  rw [trimmed, List.getLast?_append_of_ne_nil front nonempty]
  exact fun comma => noComma (List.mem_of_mem_getLast? comma)

theorem display_eq (named : e.spec.text ≠ "") :
    e.display = String.ofList (e.value.toList ++ ',' :: e.spec.text.toList) := by
  have isEmpty : e.spec.isEmpty = false := by
    simpa [FormatSpec.isEmpty] using named
  rw [display, isEmpty, if_neg Bool.false_ne_true]
  exact String.toList_inj.mp (by simp)

section again

variable {front behind value size suffix : List Char}

theorem again_plain (first : (front ++ ',' :: behind).head?.any isBlank = false)
    (nonempty : front ≠ []) (noComma : ',' ∉ behind) (noBracket : ']' ∉ behind)
    (valid : Specifier.isValid (String.ofList (trim behind)) = true) :
    let e : WatchExpr := ⟨String.ofList (trimEnd front), .plain (String.ofList (trim behind))⟩
    Splits (prepare e.display) e := by
  intro e
  have written : trim behind ≠ [] := by
    intro none
    rw [none] at valid
    exact absurd valid (by decide)
  rw [List.head?_append_of_ne_nil front nonempty] at first
  have head : (trimEnd front).head? = front.head? := head?_trimEnd first
  have nonempty' : trimEnd front ≠ [] := by
    intro none
    rw [none] at head
    exact nonempty (List.head?_eq_none_iff.mp head.symm)
  have absent (c : Char) (h : c ∉ behind) : c ∉ trim behind := fun mem => h (mem_of_mem_trim mem)
  -- written out again the text is the trimmed front, the comma and the trimmed specifier
  have prepared : prepare e.display = trimEnd front ++ ',' :: trim behind := by
    rw [display_eq (by simpa [e, FormatSpec.text] using written)]
    simp only [e, FormatSpec.text, String.toList_ofList]
    rw [List.append_cons, prepare_append ?_ written (getLast?_trim behind) (absent _ noComma)]
    rwa [List.append_assoc, List.head?_append_of_ne_nil _ nonempty', head]
  have valid : Specifier.isValid (String.ofList (trim (trim behind))) = true := by
    rw [trim_trim]
    exact valid
  have splits := Splits.plain nonempty' (absent _ noComma) (absent _ noBracket) valid
  rw [trimEnd_of_getLast? (getLast?_trimEnd front), trim_trim] at splits
  rw [prepared]
  exact splits

theorem again_sized (last : (front ++ '[' :: size ++ ']' :: suffix).getLast?.any isBlank = false)
    (before : Nested squareBrackets front) (inside : Nested squareBrackets size)
    (comma : trim front = value ++ [',']) (noBracket : ']' ∉ suffix)
    (isSuffix : Specifier.isSizeSuffix (String.ofList suffix) = true) :
    let e : WatchExpr :=
      ⟨String.ofList (trim value), .pending (String.ofList size) (String.ofList suffix)⟩
    Splits (prepare e.display) e := by
  intro e
  have head (rest : List Char) : (trim value ++ ',' :: rest).head?.any isBlank = false := by
    have first := head?_trim value
    cases trimmed : trim value with
    | nil => exact show isBlank ',' = false by decide
    | cons c value' => rwa [trimmed] at first
  have noComma : ',' ∉ ']' :: suffix :=
    List.not_mem_cons_of_ne_of_not_mem (by decide) (not_mem_of_isSizeSuffix isSuffix (by decide))
  have prepared : prepare e.display = trim value ++ ',' :: '[' :: size ++ ']' :: suffix := by
    have text : e.display = String.ofList (trim value ++ ',' :: '[' :: size ++ ']' :: suffix) := by
      rw [display_eq (by simp [e, FormatSpec.text])]
      simp [e, FormatSpec.text]
    rw [List.getLast?_append_cons] at last
    rw [text, prepare_append ?_ (List.cons_ne_nil _ _) last noComma]
    rw [List.append_assoc]
    exact head _
  -- the blanks around the comma are outside all brackets
  have before : Nested squareBrackets (trim value ++ [',']) := by
    have trimmed := before.trim (by decide)
    rw [comma] at trimmed
    exact ((trimmed.of_concat (by decide)).trim (by decide)).append (.char (by decide) .nil)
  have comma : trim (trim value ++ [',']) = trim value ++ [','] :=
    trim_of_noBlank (head []) (getLast?_append_of_ne_nil (by simp) (by decide) _)
  have splits := Splits.sized before inside comma noBracket isSuffix
  rw [trim_trim, ← List.append_cons] at splits
  rw [prepared]
  simpa using splits

end again

/-- **A text that was split and is put together again is split as before.** -/
theorem Splits.again (h : Splits cs e) (first : cs.head?.any isBlank = false)
    (last : cs.getLast?.any isBlank = false) : Splits (prepare e.display) e := by
  cases h with
  | plain nonempty noComma noBracket valid =>
    exact again_plain first nonempty noComma noBracket valid
  | sized before inside comma noBracket isSuffix =>
    exact again_sized last before inside comma noBracket isSuffix

/-- **What a trimmed text is read as is written as a text that is read so.** -/
theorem Reads.again (h : Reads cs e) (first : cs.head?.any isBlank = false)
    (last : cs.getLast?.any isBlank = false) (noComma : cs.getLast? ≠ some ',') :
    Reads (prepare e.display) e := by
  cases h with
  | split h => exact .split (h.again first last)
  | whole h =>
    have trimmed : trim (bare cs).display.toList = cs :=
      (congrArg trim String.toList_ofList).trans (trim_of_noBlank first last)
    have same : prepare (bare cs).display = cs := by
      rw [prepare_eq_trim (by rwa [trimmed]), trimmed]
    rw [same]
    exact .whole h

/-- **The split of a watch expression is stable**: an expression that was read from
a text is written and read again as the same, unless a comma ends the text. -/
theorem parse_display (s : String) (noComma : (trim s.toList).getLast? ≠ some ',') :
    Reads (trim s.toList) (parse s) ∧ parse (parse s).display = parse s := by
  have reads := reads_parse s
  rw [prepare_eq_trim noComma] at reads
  exact ⟨reads, parse_eq_iff.mpr (reads.again (head?_trim _) (getLast?_trim _) noComma)⟩

theorem parse_display_padded :
    (trim " data , [ n ] x ".toList).getLast? ≠ some ',' ∧
      parse " data , [ n ] x " = ⟨"data", .pending " n " " x"⟩ ∧
      (parse " data , [ n ] x ").display = "data,[ n ] x" ∧
      parse (parse " data , [ n ] x ").display = parse " data , [ n ] x " := by
  have noComma : (trim " data , [ n ] x ".toList).getLast? ≠ some ',' := by decide +kernel
  exact ⟨noComma, by decide +kernel, by decide +kernel, (parse_display _ noComma).2⟩

/-- A comma at the end is left out, but not the blank in front of it. -/
example : parse "data ," = ⟨"data ", .none⟩ ∧ parse (parse "data ,").display = ⟨"data", .none⟩ := by
  decide +kernel

end WatchExpr

end WatchView
