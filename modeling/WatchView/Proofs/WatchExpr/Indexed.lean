import WatchView.Proofs.MemberPath
import WatchView.Proofs.WatchExpr.Split
/-!
# Expressions of elements

The expression of an element of an array is made of the pointer as a text, with an index
behind it. A pointer is a watch expression, so it may have a format specifier behind its
value; and the elements are to be shown in that format.

No comma of an element's expression is one to split at: the text ends with the index, which
is no size, for a size is behind a comma (`not_splits_indexed`). So an element has no
specifier (`parse_elementOf`), and a specifier of the pointer becomes part of the value, in
the parentheses in front of the index. **An element keeps the specifier of its pointer, behind
the value alone, if and only if there is none and the pointer does not end in a comma**
(`keepsSpecifier_iff`).
-/

namespace WatchView

namespace WatchExpr

open Text ArrayListing

variable {pointer s : String} {front cs : List Char} {e : WatchExpr}

/-- Whether a text is the value with the index behind it, the value in parentheses or not.
Blanks in the parentheses do not count. -/
def IndexesAlone (value : String) (index : Nat) (text : String) : Prop :=
  text = value ++ positionName index ∨
    ∃ before behind : List Char, before.all isBlank = true ∧ behind.all isBlank = true ∧
      text.toList =
        '(' :: (before ++ value.toList ++ behind ++ ')' :: (positionName index).toList)

/-- Whether the expression of an element is read as the value of the pointer with the index
behind it and with the specifier of the pointer. -/
def KeepsSpecifier (pointer : String) (index : Nat) : Prop :=
  IndexesAlone (parse pointer).value index (parse (elementOf pointer index)).value ∧
    (parse (elementOf pointer index)).spec = (parse pointer).spec

/-! ## Reading an element -/

/-- A text with an index behind it has no comma to split at, unless the text ends in one. -/
theorem not_splits_indexed (noComma : (trim front).getLast? ≠ some ',') (index : Nat) :
    ¬ Splits (front ++ (positionName index).toList) e := by
  obtain ⟨digits, -, all, bracketed⟩ := MemberPath.exists_digits_positionName index
  intro splits
  generalize same : front ++ (positionName index).toList = cs at splits
  have last : cs.getLast? = some ']' := by
    rw [← same, bracketed, ← List.cons_append, ← List.append_assoc, List.getLast?_concat]
  cases splits with
  | @plain front' behind nonempty noComma' noBracket valid =>
    rw [List.getLast?_append_cons] at last
    have mem : ']' ∈ ',' :: behind := List.mem_of_mem_getLast? last
    exact noBracket ((List.mem_cons.mp mem).resolve_left (by decide))
  | @sized front' value size suffix before inside comma noBracket isSuffix =>
    -- the last bracket closes the one of the index, so the size is the index
    obtain rfl : suffix = [] := by
      by_contra more
      rw [List.getLast?_append_cons, List.getLast?_cons_of_ne_nil more] at last
      exact noBracket (List.mem_of_mem_getLast? last)
    have opening : front ++ '[' :: digits = front' ++ '[' :: size := by
      rw [bracketed, ← List.cons_append, ← List.append_assoc] at same
      exact (List.append_inj' same rfl).1
    have plain : ∀ c ∈ digits, c ∉ delimiters squareBrackets :=
      Nested.plain_of_all (by decide) all
    rcases List.append_eq_append_iff.mp opening with ⟨between, rfl, rest⟩ | ⟨between, rfl, rest⟩
    · cases between with
      | nil =>
        rw [List.append_nil] at comma
        rw [comma, List.getLast?_concat] at noComma
        exact noComma rfl
      | cons c between =>
        rw [(List.cons.inj rest).2] at plain
        exact plain '[' (by simp) (by decide)
    · cases between with
      | nil =>
        rw [List.append_nil] at noComma
        rw [comma, List.getLast?_concat] at noComma
        exact noComma rfl
      | cons c between =>
        have rest : size = between ++ '[' :: digits := (List.cons.inj rest).2
        rw [rest, List.append_cons] at inside
        exact Nested.not_concat_left (by decide) (by decide) (by simp [squareBrackets])
          (inside.of_append_plain plain)

/-- An access does not end in a comma. -/
theorem getLast?_of_isAccess (access : MemberPath.isAccess pointer = true) :
    (trim pointer.toList).getLast? ≠ some ',' := by
  obtain ⟨name, steps, named, areSteps, same⟩ := MemberPath.isAccess_iff.mp access
  intro comma
  rw [same] at comma
  have all := MemberPath.all_isPathChar_access named areSteps
  exact absurd (List.all_eq_true.mp all _ (List.mem_of_mem_getLast? comma)) (by decide)

theorem toList_elementOf (access : MemberPath.isAccess pointer = false) (index : Nat) :
    (elementOf pointer index).toList =
      '(' :: (pointer.toList ++ [')']) ++ (positionName index).toList := by
  rw [elementOf, if_neg (Bool.eq_false_iff.mp access)]
  simp

/-- What stands in front of the index. -/
theorem exists_front (pointer : String) (index : Nat) :
    ∃ front, (elementOf pointer index).toList = front ++ (positionName index).toList ∧
      trim front = front ∧ front.getLast? ≠ some ',' := by
  cases access : MemberPath.isAccess pointer with
  | true =>
    refine ⟨trim pointer.toList, ?_, trim_trim _, getLast?_of_isAccess access⟩
    rw [elementOf, if_pos access, String.toList_append, trimmed, String.toList_ofList]
  | false =>
    refine ⟨_, toList_elementOf access index, trim_of_noBlank rfl ?_, ?_⟩
    · rw [← List.cons_append, List.getLast?_concat]
      decide
    · rw [← List.cons_append, List.getLast?_concat]
      decide

/-- **An element has no specifier.** -/
theorem parse_elementOf (pointer : String) (index : Nat) :
    parse (elementOf pointer index) = ⟨elementOf pointer index, .none⟩ := by
  obtain ⟨front, text, trimmed, noComma⟩ := exists_front pointer index
  obtain ⟨digits, -, -, bracketed⟩ := MemberPath.exists_digits_positionName index
  have first : (elementOf pointer index).toList.head?.any isBlank = false := by
    rw [text, bracketed]
    cases front with
    | nil => rfl
    | cons c front =>
      have solid := head?_trim (c :: front)
      rwa [trimmed] at solid
  have last : (elementOf pointer index).toList.getLast? = some ']' := by
    rw [text, bracketed, ← List.cons_append, ← List.append_assoc, List.getLast?_concat]
  have solid : trim (elementOf pointer index).toList = (elementOf pointer index).toList :=
    trim_of_noBlank first (by rw [last]; decide)
  have prepared : prepare (elementOf pointer index) = (elementOf pointer index).toList := by
    rw [prepare_eq_trim, solid]
    rw [solid, last]
    decide
  have whole : ∀ e, ¬ Splits (prepare (elementOf pointer index)) e := by
    intro e
    rw [prepared, text]
    exact not_splits_indexed (by rwa [trimmed]) index
  have bare_eq : bare (elementOf pointer index).toList = ⟨elementOf pointer index, .none⟩ := by
    rw [bare, String.ofList_toList]
  rw [parse_eq_iff, ← bare_eq, ← prepared]
  exact .whole whole

/-! ## The specifier of the pointer -/

theorem Splits.spec_ne_none (h : Splits cs e) : e.spec ≠ .none := by
  cases h with
  | @plain front behind nonempty noComma noBracket valid =>
    intro none
    rw [FormatSpec.plain.inj none] at valid
    exact absurd valid (by decide)
  | sized => exact nofun

/-- What has no specifier is its own value. -/
theorem parse_of_spec_none (h : (parse s).spec = .none) : parse s = bare (prepare s) :=
  (splits_parse s).resolve_right fun splits => splits.spec_ne_none h

/-- A comma at the end of a pointer is not part of its value, but it is part of an element. -/
theorem not_indexesAlone_of_comma (index : Nat)
    (comma : (trim pointer.toList).getLast? = some ',') :
    ¬ IndexesAlone (bare (prepare pointer)).value index (elementOf pointer index) := by
  obtain ⟨cs, same⟩ := List.getLast?_eq_some_iff.mp comma
  have prepared : prepare pointer = cs := by
    rw [prepare, dropTail?_eq_some_iff.mpr same]
    rfl
  have access : MemberPath.isAccess pointer = false :=
    Bool.eq_false_iff.mpr fun access => getLast?_of_isAccess access comma
  -- the pointer is longer than its value
  have longer : cs.length < pointer.toList.length := by
    have le := length_trim_le pointer.toList
    rw [same, List.length_append, List.length_singleton] at le
    omega
  rw [prepared]
  rintro (short | ⟨before, behind, blank, blank', long⟩)
  · have text := congrArg String.toList short
    rw [toList_elementOf access, String.toList_append] at text
    have lengths := congrArg List.length (List.append_cancel_right text)
    simp only [bare, String.toList_ofList, List.length_cons, List.length_append] at lengths
    omega
  · rw [toList_elementOf access] at long
    have text : pointer.toList ++ ')' :: (positionName index).toList =
        before ++ cs ++ behind ++ ')' :: (positionName index).toList := by
      simpa [bare] using long
    have le := length_trim_le cs
    rw [List.append_cancel_right text, trim_append_right blank', trim_append_left blank] at same
    rw [same, List.length_append, List.length_singleton] at le
    omega

/-- An element indexes the trimmed pointer. -/
theorem indexesAlone_trim (pointer : String) (index : Nat) :
    IndexesAlone (trimmed pointer) index (elementOf pointer index) := by
  cases access : MemberPath.isAccess pointer with
  | true => exact .inl (by rw [elementOf, if_pos access])
  | false =>
    obtain ⟨before, behind, blank, blank', same⟩ := exists_trim_append pointer.toList
    refine .inr ⟨before, behind, blank, blank', ?_⟩
    rw [toList_elementOf access, trimmed, String.toList_ofList, ← same, List.cons_append,
      List.append_assoc, List.singleton_append]

/-- **When an element keeps the specifier of its pointer.** It is read as a value without
specifier; and that value is the one of the pointer with the index behind it, and the specifier
the one of the pointer, if and only if the pointer has none and does not end in a comma. -/
theorem keepsSpecifier_iff (pointer : String) (index : Nat) :
    parse (elementOf pointer index) = ⟨elementOf pointer index, .none⟩ ∧
      (KeepsSpecifier pointer index ↔
        (parse pointer).spec = .none ∧ (trim pointer.toList).getLast? ≠ some ',') := by
  refine ⟨parse_elementOf pointer index, ?_⟩
  rw [KeepsSpecifier, parse_elementOf]
  dsimp only
  constructor
  · rintro ⟨alone, spec⟩
    refine ⟨spec.symm, fun comma => ?_⟩
    rw [parse_of_spec_none spec.symm] at alone
    exact not_indexesAlone_of_comma index comma alone
  · rintro ⟨none, noComma⟩
    refine ⟨?_, none.symm⟩
    rw [parse_of_spec_none none, prepare_eq_trim noComma]
    exact indexesAlone_trim pointer index

/-- **A format is lost**: the elements of `data,x` are elements of the text `data,x` in
parentheses, in no format. -/
theorem format_of_pointer_lost :
    parse "data,x" = ⟨"data", .plain "x"⟩ ∧
      parse (elementOf "data,x" 0) = ⟨"(data,x)[0]", .none⟩ ∧ ¬ KeepsSpecifier "data,x" 0 := by
  have pointer : parse "data,x" = ⟨"data", .plain "x"⟩ := by decide
  have element : parse (elementOf "data,x" 0) = ⟨"(data,x)[0]", .none⟩ := by decide +kernel
  refine ⟨pointer, element, fun keeps => ?_⟩
  have spec := keeps.2
  rw [pointer, element] at spec
  exact absurd spec (by decide)

end WatchExpr

end WatchView
