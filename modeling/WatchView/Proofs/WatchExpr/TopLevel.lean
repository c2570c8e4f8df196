import WatchView.Proofs.WatchExpr.Split
/-!
# Specifiers are split off at the top level

A text is balanced (`IsBalanced`) if it is well nested for round, square and
curly brackets. The comma at which a balanced expression is split stands outside
of all its brackets and literals: what is in front of it is balanced. A
specifier gives no room for anything else, for it has no quotes, and no brackets
but those of a call or of a size, which are closed in it.

The main statement, `balanced_parse`, says so, and that the value and the size
read from a balanced expression are balanced.
-/

namespace WatchView

namespace WatchExpr

open Text

/-- The brackets of an expression. -/
def allBrackets : Brackets := [('(', ')'), ('[', ']'), ('\x7b', '\x7d')]

/-- **Balanced texts**: literals are closed, and brackets outside of them are
properly nested. -/
def IsBalanced (cs : List Char) : Prop := Nested allBrackets cs

variable {cs front behind size suffix : List Char} {s : String} {e : WatchExpr}

namespace IsBalanced

theorem trim (h : IsBalanced cs) : IsBalanced (trim cs) := Nested.trim (by decide) h

/-- What a specifier may be made of can be dropped at the end. -/
theorem of_append_flat (flat : behind.all Specifier.isFlat = true)
    (h : IsBalanced (cs ++ behind)) : IsBalanced cs :=
  h.of_append_plain (Nested.plain_of_all (by decide) flat)

theorem of_concat_comma (h : IsBalanced (cs ++ [','])) : IsBalanced cs :=
  h.of_concat (by decide)

theorem nested_square (h : IsBalanced cs) : Nested squareBrackets cs :=
  h.of_more (by decide) (by decide)

/-- A call at the end can be dropped. -/
theorem of_append_call {argument : List Char} (flat : argument.all Specifier.isFlat = true)
    (h : IsBalanced (cs ++ '(' :: (argument ++ [')']))) : IsBalanced cs := by
  rw [← List.cons_append, ← List.append_assoc] at h
  obtain ⟨left, front, inner, kind, same, before, inside⟩ :=
    Nested.exists_group (by decide) (by decide) h
  obtain rfl : left = '(' := by simpa [allBrackets] using kind
  rcases List.append_eq_append_iff.mp same with ⟨between, rfl, rest⟩ | ⟨between, rfl, rest⟩
  · cases between with
    | nil => rwa [List.append_nil] at before
    | cons c between =>
      -- the group would open inside the call
      have rest : argument = between ++ '(' :: inner := (List.cons.inj rest).2
      exact absurd (by simp [rest]) (Specifier.not_mem_of_isFlat (c := '(') (by decide) flat)
  · cases between with
    | nil => rwa [List.append_nil]
    | cons c between =>
      -- the group would open in front of the call, which would not be closed
      have rest : inner = between ++ '(' :: argument := (List.cons.inj rest).2
      rw [rest, List.append_cons] at inside
      exact absurd (IsBalanced.of_append_flat flat inside)
        (Nested.not_concat_left (by decide) (by decide) (by simp [allBrackets]))

/-- Square brackets at the end enclose a balanced text and are behind another one. -/
theorem of_append_size (before : Nested squareBrackets front)
    (inside : Nested squareBrackets size) (h : IsBalanced (front ++ '[' :: size ++ [']'])) :
    IsBalanced front ∧ IsBalanced size := by
  obtain ⟨left, front', inner, kind, same, before', inside'⟩ :=
    Nested.exists_group (by decide) (by decide) h
  obtain rfl : left = '[' := by simpa [allBrackets] using kind
  -- only one bracket is closed by the last one
  have found := openingBracket?_eq_some_iff.mpr ⟨front, size, rfl, rfl, before, inside⟩
  have found' := openingBracket?_eq_some_iff.mpr
    ⟨front', inner, rfl, rfl, nested_square before', nested_square inside'⟩
  rw [same, found', Option.some.injEq] at found
  obtain ⟨rfl, rest⟩ := List.append_inj same found.symm
  rw [(List.cons.inj rest).2]
  exact ⟨before', inside'⟩

theorem prepare (h : IsBalanced s.toList) : IsBalanced (prepare s) := by
  unfold WatchExpr.prepare
  dsimp only
  cases comma : dropTail? [','] (Text.trim s.toList) with
  | none => exact h.trim
  | some cs =>
    have trimmed := h.trim
    rw [dropTail?_eq_some_iff.mp comma] at trimmed
    exact of_concat_comma trimmed

end IsBalanced

/-! ## The comma of a split -/

theorem balanced_of_plain (noBracket : ']' ∉ behind)
    (valid : Specifier.isValid (String.ofList (trim behind)) = true)
    (balanced : IsBalanced (front ++ ',' :: behind)) : IsBalanced front := by
  obtain ⟨b, z, first, last, same⟩ := exists_trim_append behind
  have shape := Specifier.shape_of_isValid valid
  have noBracket : ']' ∉ trim behind := fun mem => noBracket (mem_of_mem_trim mem)
  have blank {cs : List Char} (h : cs.all isBlank = true) : cs.all Specifier.isFlat = true :=
    all_of_imp (fun _ => Specifier.isFlat_of_isBlank) h
  rw [String.toList_ofList, trim_trim] at shape
  rw [same, List.append_cons, ← List.append_assoc] at balanced
  have balanced := IsBalanced.of_append_flat (blank last) balanced
  rw [← List.append_assoc] at balanced
  generalize trim behind = text at shape noBracket balanced
  cases shape with
  | flat flat => exact ((balanced.of_append_flat flat).of_append_flat (blank first)).of_concat_comma
  | call name flat =>
    rw [← List.append_assoc] at balanced
    have balanced := (balanced.of_append_call flat).of_append_flat name
    exact (balanced.of_append_flat (blank first)).of_concat_comma
  | sized isSuffix => simp at noBracket

/-- The text in front of a size, and the size. -/
theorem balanced_of_sized (before : Nested squareBrackets front)
    (inside : Nested squareBrackets size)
    (isSuffix : Specifier.isSizeSuffix (String.ofList suffix) = true)
    (balanced : IsBalanced (front ++ '[' :: size ++ ']' :: suffix)) :
    IsBalanced front ∧ IsBalanced size := by
  rw [List.append_cons] at balanced
  exact (balanced.of_append_flat (Specifier.isFlat_of_isSizeSuffix isSuffix)).of_append_size
    before inside

/-- **The comma of a split is outside of all brackets and literals.** -/
theorem Splits.exists_comma (h : Splits cs e) (first : cs.head?.any isBlank = false)
    (balanced : IsBalanced cs) :
    ∃ front behind, cs = front ++ ',' :: behind ∧ IsBalanced front ∧
      trim front = e.value.toList ∧ trim behind = trim e.spec.text.toList := by
  cases h with
  | @plain front behind nonempty noComma noBracket valid =>
    rw [List.head?_append_of_ne_nil front nonempty] at first
    refine ⟨front, behind, rfl, balanced_of_plain noBracket valid balanced, ?_, ?_⟩
    · rw [trim, trimStart_of_head first, String.toList_ofList]
    · simp [FormatSpec.text]
  | @sized front value size suffix before inside comma noBracket isSuffix =>
    obtain ⟨balanced, -⟩ := balanced_of_sized before inside isSuffix balanced
    obtain ⟨b, z, blank, blank', same⟩ := exists_trim_append front
    rw [comma] at same
    refine ⟨b ++ value, z ++ ('[' :: size ++ ']' :: suffix), ?_, ?_, ?_, ?_⟩
    · simp [same]
    · rw [same, ← List.append_assoc] at balanced
      exact (balanced.of_append_flat
        (all_of_imp (fun _ => Specifier.isFlat_of_isBlank) blank')).of_concat_comma
    · rw [trim_append_left blank, String.toList_ofList]
    · rw [trim_append_left blank']
      simp [FormatSpec.text]

theorem Splits.balanced_size (h : Splits cs e) (balanced : IsBalanced cs) {size : String}
    (pending : e.spec.pendingSize? = some size) : IsBalanced size.toList := by
  cases h with
  | plain => cases pending
  | sized before inside comma noBracket isSuffix =>
    obtain rfl := Option.some.inj pending
    rw [String.toList_ofList]
    exact (balanced_of_sized before inside isSuffix balanced).2

theorem head?_prepare (s : String) : (prepare s).head?.any isBlank = false := by
  unfold prepare
  dsimp only
  have first := head?_trim s.toList
  cases comma : dropTail? [','] (trim s.toList) with
  | none => exact first
  | some cs =>
    rw [dropTail?_eq_some_iff.mp comma] at first
    cases cs with
    | nil => rfl
    | cons c cs => exact first

/-- **A specifier is split off at the top level only**: the value and the size
read from a balanced expression are balanced, and so is what stands in front of
the comma at which it was split. -/
theorem balanced_parse (s : String) (balanced : IsBalanced s.toList) :
    IsBalanced (parse s).value.toList ∧
      (∀ size, (parse s).spec.pendingSize? = some size → IsBalanced size.toList) ∧
      ((parse s).spec ≠ .none → ∃ front behind, prepare s = front ++ ',' :: behind ∧
        IsBalanced front ∧ trim front = (parse s).value.toList ∧
        trim behind = trim (parse s).spec.text.toList) := by
  rcases splits_parse s with whole | splits
  · rw [whole]
    refine ⟨?_, nofun, fun split => absurd rfl split⟩
    exact (String.toList_ofList (l := prepare s)).symm ▸ balanced.prepare
  · obtain ⟨front, behind, same, top, value, spec⟩ :=
      splits.exists_comma (head?_prepare s) balanced.prepare
    refine ⟨?_, fun size => splits.balanced_size balanced.prepare, fun _ => ?_⟩
    · rw [← value]
      exact top.trim
    · exact ⟨front, behind, same, top, value, spec⟩

/-- An expression with a comma in a literal, in a call. -/
theorem isBalanced_call : IsBalanced "f(',')[0],[n]x".toList := by
  have comma : IsLiteral '\'' [','] := .char (by decide) (by decide) .nil
  have literal : IsBalanced ['\'', ',', '\''] := .literal (by decide) comma .nil
  have plain {c : Char} (h : c ∉ delimiters allBrackets) : IsBalanced [c] := .char h .nil
  have zero : IsBalanced ['0'] := plain (by decide)
  have n : IsBalanced ['n'] := plain (by decide)
  have size : IsBalanced ['[', 'n', ']', 'x'] := .group (by decide) n (plain (by decide))
  have index : IsBalanced ['[', '0', ']', ',', '[', 'n', ']', 'x'] :=
    .group (by decide) zero (.char (by decide) size)
  have call : IsBalanced ('(' :: (['\'', ',', '\''] ++ ')' :: _)) := .group (by decide) literal index
  exact .char (by decide) call

theorem balanced_parse_call :
    IsBalanced "f(',')[0],[n]x".toList ∧
      parse "f(',')[0],[n]x" = ⟨"f(',')[0]", .pending "n" "x"⟩ ∧
      IsBalanced "f(',')[0]".toList ∧ IsBalanced "n".toList := by
  have split : parse "f(',')[0],[n]x" = ⟨"f(',')[0]", .pending "n" "x"⟩ := by decide +kernel
  obtain ⟨value, size, -⟩ := balanced_parse _ isBalanced_call
  rw [split] at value size
  exact ⟨isBalanced_call, split, value, size "n" rfl⟩

end WatchExpr

end WatchView
