import WatchView.Proofs.Specifier
/-!
# A specifier has one reading

Three readers look at a specifier: one takes it apart into a size, a mark and a base
format, one finds the name of a view in it, and one the index of a child (`ReadAs`). Each
takes the mark and the blanks off in its own way.

What is read in parts has an opening parenthesis at most in the brackets of its size
(`not_mem_of_parts?`), a call has one without such brackets, and the two calls differ in
their first letter. So **no specifier has two readings and a valid one has exactly one, and
a valid one asks for the raw value exactly if there is a mark in it outside of the brackets
of its size** (`one_reading`).
-/

namespace WatchView

namespace Specifier

open Text

variable {s : String} {cs : List Char} {p : Parts}

/-- What a specifier can be read as. -/
inductive Reading
  /-- A size, a mark and a base format. -/
  | parts (parts : Parts)
  /-- The view with this name. -/
  | view (name : String)
  /-- The child at this index. -/
  | child (index : Nat)

/-- What the three readers find. -/
def ReadAs (s : String) : Reading → Prop
  | .parts parts => parts? s = some parts
  | .view name => viewName? s = some name
  | .child index => expandIndex? s = some index

/-- Whether there is a mark in a text outside of the square brackets it starts with, which
end at the last closing one. -/
def MarkedOutside (cs : List Char) : Prop :=
  ∃ front behind, cs = front ++ '!' :: behind ∧ ¬ (cs.head? = some '[' ∧ ']' ∈ behind)

theorem markedOutside_of_head (h : cs.head? = some '!') : MarkedOutside cs := by
  obtain ⟨behind, rfl⟩ := List.head?_eq_some_iff.mp h
  refine ⟨[], behind, rfl, fun inside => ?_⟩
  exact absurd inside.1 (by simp)

theorem MarkedOutside.mem (h : MarkedOutside cs) : '!' ∈ cs := by
  obtain ⟨front, behind, rfl, -⟩ := h
  simp

/-! ## Read in parts -/

theorem cutSize_of_parts? (h : parts? s = some p) :
    cutSize (trim s.toList) = (p.size, p.raw ++ p.base) ∧
      cutRaw (p.raw ++ p.base) = (p.raw, p.base) ∧ isBaseShape p.base = true := by
  unfold parts? at h
  dsimp only at h
  split at h
  · rename_i shape
    obtain rfl := Option.some.inj h
    rw [append_cutRaw]
    exact ⟨rfl, rfl, shape⟩
  · cases h

/-- **The parts of a specifier in a row are the specifier.** -/
theorem append_parts (h : parts? s = some p) : p.size ++ p.raw ++ p.base = trim s.toList := by
  have whole := append_cutSize (trim s.toList)
  rw [(cutSize_of_parts? h).1] at whole
  rw [List.append_assoc, whole]

theorem all_mark_of_parts? (h : parts? s = some p) : p.raw.all (· == '!') = true := by
  have marks := all_cutRaw (p.raw ++ p.base)
  rwa [(cutSize_of_parts? h).2.1] at marks

/-- A size in brackets ends with the last closing one. -/
theorem bracketed_of_parts? (h : parts? s = some p) (bracket : (trim s.toList).head? = some '[') :
    ∃ front, p.size = front ++ [']'] ∧ ']' ∉ p.raw ++ p.base := by
  obtain ⟨cut, mark, shape⟩ := cutSize_of_parts? h
  obtain ⟨tail, text⟩ := List.head?_eq_some_iff.mp bracket
  rw [text] at cut
  cases last : cutAfterLast? ']' ('[' :: tail) with
  | none =>
    -- then the base would start with the bracket
    simp only [cutSize, last, Option.getD_none, Prod.mk.injEq] at cut
    rw [← cut.2, cutRaw_of_head (by simp)] at mark
    rw [← (Prod.mk.inj mark).2] at shape
    exact absurd shape (by simp [isBaseShape])
  | some q =>
    simp only [cutSize, last, Option.getD_some] at cut
    obtain ⟨noBracket, front, same, -⟩ := cutAfterLast?_eq_some_iff.mp (cut ▸ last)
    exact ⟨front, same, noBracket⟩

/-- No character that is neither a mark nor part of an identifier is behind the size. -/
theorem not_mem_behind_size {c : Char} (h : parts? s = some p) (noMark : c ≠ '!')
    (other : isIdent c = false) : c ∉ p.raw ++ p.base := by
  intro mem
  rcases List.mem_append.mp mem with mem | mem
  · exact noMark (eq_of_beq (List.all_eq_true.mp (all_mark_of_parts? h) c mem))
  · have base := isIdent_of_isBaseShape (cutSize_of_parts? h).2.2
    exact Bool.eq_false_iff.mp other (List.all_eq_true.mp base c mem)

theorem not_mem_base (h : parts? s = some p) : '!' ∉ p.base := by
  intro mem
  have base := isIdent_of_isBaseShape (cutSize_of_parts? h).2.2
  exact absurd (List.all_eq_true.mp base _ mem) (by decide)

/-- A size without brackets is a row of letters and digits. -/
theorem isIdent_size (h : parts? s = some p) (noBracket : (trim s.toList).head? ≠ some '[') :
    p.size.all isIdent = true := by
  have size := isIdent_cutSize noBracket
  rwa [(cutSize_of_parts? h).1] at size

/-- What is read in parts has a parenthesis at most in brackets. -/
theorem not_mem_of_parts? (h : parts? s = some p) (noBracket : (trim s.toList).head? ≠ some '[') :
    '(' ∉ trim s.toList := by
  rw [← append_parts h, List.append_assoc]
  intro mem
  rcases List.mem_append.mp mem with mem | mem
  · exact absurd (List.all_eq_true.mp (isIdent_size h noBracket) _ mem) (by decide)
  · exact not_mem_behind_size h (by decide) (by decide) mem

theorem markedOutside_iff_of_parts? (h : parts? s = some p) :
    MarkedOutside (trim s.toList) ↔ p.raw ≠ [] := by
  have whole := append_parts h
  rw [List.append_assoc] at whole
  constructor
  · intro marked
    suffices mem : '!' ∈ p.raw from List.ne_nil_of_mem mem
    suffices behind : '!' ∈ p.raw ++ p.base from
      (List.mem_append.mp behind).resolve_right (not_mem_base h)
    by_cases bracket : (trim s.toList).head? = some '['
    · -- the mark is behind the last closing bracket, where the size ends
      obtain ⟨front, behind, same, outside⟩ := marked
      obtain ⟨inside, size, -⟩ := bracketed_of_parts? h bracket
      rw [← whole, size, List.append_assoc, List.singleton_append] at same
      exact mem_of_append_cons_eq same (by decide) fun mem => outside ⟨bracket, mem⟩
    · have mem := marked.mem
      rw [← whole] at mem
      refine (List.mem_append.mp mem).resolve_left fun mem => ?_
      exact absurd (List.all_eq_true.mp (isIdent_size h bracket) _ mem) (by decide)
  · intro raw
    obtain ⟨c, more, raw⟩ := List.exists_cons_of_ne_nil raw
    obtain rfl : c = '!' := by
      have marks := all_mark_of_parts? h
      rw [raw, List.all_cons, Bool.and_eq_true] at marks
      exact eq_of_beq marks.1
    refine ⟨p.size, more ++ p.base, by rw [← whole, raw, List.cons_append], ?_⟩
    rintro ⟨bracket, mem⟩
    obtain ⟨-, -, noBracket⟩ := bracketed_of_parts? h bracket
    rw [raw, List.cons_append] at noBracket
    exact noBracket (List.mem_cons_of_mem _ mem)

/-! ## Read as a call -/

theorem exists_of_viewName? {name : String} (h : viewName? s = some name) :
    ∃ argument, argumentOf? "view" (withoutRaw s) = some argument ∧ '!' ∉ trim argument := by
  obtain ⟨argument, call, h⟩ := Option.bind_eq_some_iff.mp h
  refine ⟨argument, call, fun mem => ?_⟩
  dsimp only at h
  split at h
  · rename_i named
    have ident := (Bool.and_eq_true_iff.mp named).2
    exact absurd (List.all_eq_true.mp ident _ mem) (by decide)
  · cases h

theorem not_mem_of_digits? {bound n : Nat} (h : digits? 10 bound cs = some n) : '!' ∉ cs :=
  fun mem => absurd (List.all_eq_true.mp (isDigit_of_digits? h) _ mem) (by decide)

theorem exists_of_expandIndex? {index : Nat} (h : expandIndex? s = some index) :
    ∃ argument, argumentOf? "expand" (withoutRaw s) = some argument ∧ '!' ∉ trim argument := by
  obtain ⟨argument, call, h⟩ := Option.bind_eq_some_iff.mp h
  refine ⟨argument, call, ?_⟩
  unfold numeral? at h
  split at h
  · rename_i text
    rw [text, List.mem_cons, not_or]
    exact ⟨by decide, not_mem_of_digits? h⟩
  · exact not_mem_of_digits? h

section Call

variable {function : String} {argument : List Char}

/-- A call is not read in parts. -/
theorem parts?_eq_none_of_call (h : argumentOf? function (withoutRaw s) = some argument)
    (name : function.toList.head?.any isIdent = true) : parts? s = none := by
  obtain ⟨gap, -, same⟩ := exists_of_argumentOf? h
  have mem : '(' ∈ trim s.toList := by
    rw [← append_cutRaw (trim s.toList), show (cutRaw (trim s.toList)).2 = _ from same]
    simp
  have noBracket : (trim s.toList).head? ≠ some '[' := by
    intro bracket
    rw [withoutRaw, cutRaw_of_head (by simp [bracket])] at same
    have head := head?_append_any name (gap ++ '(' :: (argument ++ [')']))
    rw [← same, bracket] at head
    exact absurd head (by decide)
  exact Option.eq_none_iff_forall_ne_some.mpr fun p parts =>
    not_mem_of_parts? parts noBracket mem

/-- The only place for a mark in a call is the front. -/
theorem markedOutside_iff_of_call (h : argumentOf? function (withoutRaw s) = some argument)
    (name : '!' ∉ function.toList) (inside : '!' ∉ trim argument) :
    MarkedOutside (trim s.toList) ↔ (trim s.toList).head? = some '!' := by
  refine ⟨fun marked => ?_, markedOutside_of_head⟩
  obtain ⟨gap, blank, same⟩ := exists_of_argumentOf? h
  by_contra noMark
  have mem := marked.mem
  have whole : withoutRaw s = trim s.toList := by rw [withoutRaw, cutRaw_of_head noMark]
  rw [← whole, same] at mem
  have noGap : '!' ∉ gap := fun mem => absurd (List.all_eq_true.mp blank _ mem) (by decide)
  have noArgument : '!' ∉ argument := fun mem => inside (mem_trim_of_mem (by decide) mem)
  simp [name, noGap, noArgument] at mem

end Call

/-- No text is a view and a child. -/
theorem expandIndex?_eq_none_of_viewName? {name : String} (h : viewName? s = some name) :
    expandIndex? s = none := by
  refine Option.eq_none_iff_forall_ne_some.mpr fun index h' => ?_
  obtain ⟨argument, call, -⟩ := exists_of_viewName? h
  obtain ⟨argument', call', -⟩ := exists_of_expandIndex? h'
  obtain ⟨gap, -, same⟩ := exists_of_argumentOf? call
  obtain ⟨gap', -, same'⟩ := exists_of_argumentOf? call'
  have heads := congrArg List.head? (same.symm.trans same')
  exact absurd heads (by simp)

/-! ## One reading -/

theorem parts?_eq_none_of_viewName? {name : String} (h : viewName? s = some name) :
    parts? s = none :=
  let ⟨_, call, _⟩ := exists_of_viewName? h
  parts?_eq_none_of_call call (by decide)

theorem parts?_eq_none_of_expandIndex? {index : Nat} (h : expandIndex? s = some index) :
    parts? s = none :=
  let ⟨_, call, _⟩ := exists_of_expandIndex? h
  parts?_eq_none_of_call call (by decide)

/-- No specifier has two readings. -/
theorem ReadAs.eq {r r' : Reading} (h : ReadAs s r) (h' : ReadAs s r') : r = r' := by
  have apart {α : Type} {o : Option α} {a : α} (some : o = some a) (none : o = none) : False :=
    nomatch none.symm.trans some
  cases r with
  | parts p =>
    cases r' with
    | parts p' => exact congrArg Reading.parts (Option.some.inj (h.symm.trans h'))
    | view name' => exact (apart h (parts?_eq_none_of_viewName? h')).elim
    | child index' => exact (apart h (parts?_eq_none_of_expandIndex? h')).elim
  | view name =>
    cases r' with
    | parts p' => exact (apart h' (parts?_eq_none_of_viewName? h)).elim
    | view name' => exact congrArg Reading.view (Option.some.inj (h.symm.trans h'))
    | child index' => exact (apart h' (expandIndex?_eq_none_of_viewName? h)).elim
  | child index =>
    cases r' with
    | parts p' => exact (apart h' (parts?_eq_none_of_expandIndex? h)).elim
    | view name' => exact (apart h (expandIndex?_eq_none_of_viewName? h')).elim
    | child index' => exact congrArg Reading.child (Option.some.inj (h.symm.trans h'))

theorem exists_readAs_of_isValid (h : isValid s = true) : ∃ r, ReadAs s r := by
  unfold isValid at h
  split at h
  · cases h
  split at h
  · rename_i called
    rcases Bool.or_eq_true_iff.mp called with child | view
    · obtain ⟨index, child⟩ := Option.isSome_iff_exists.mp child
      exact ⟨.child index, child⟩
    · obtain ⟨name, view⟩ := Option.isSome_iff_exists.mp view
      exact ⟨.view name, view⟩
  · split at h
    · cases h
    · rename_i parts
      exact ⟨.parts _, parts⟩

/-- What has a reading asks for the raw value exactly if there is a mark outside of the
brackets of its size. -/
theorem ReadAs.isRaw_iff {r : Reading} (h : ReadAs s r) :
    isRaw s = true ↔ MarkedOutside (trim s.toList) := by
  have called (none : parts? s = none) :
      isRaw s = true ↔ (trim s.toList).head? = some '!' := by
    rw [isRaw, none]
    exact beq_iff_eq
  cases r with
  | parts p =>
    have parts : parts? s = some p := h
    rw [markedOutside_iff_of_parts? parts, isRaw, parts]
    simp
  | view name =>
    obtain ⟨argument, call, inside⟩ := exists_of_viewName? h
    rw [markedOutside_iff_of_call call (by decide) inside, called (parts?_eq_none_of_viewName? h)]
  | child index =>
    obtain ⟨argument, call, inside⟩ := exists_of_expandIndex? h
    rw [markedOutside_iff_of_call call (by decide) inside,
      called (parts?_eq_none_of_expandIndex? h)]

/-- **A specifier has one reading.** The parts it is read in make it up, no two readers accept
it, and exactly one does if it is valid; and then it asks for the raw value exactly if there is
a mark in it outside of the brackets of its size. -/
theorem one_reading (s : String) :
    (∀ p, parts? s = some p → p.size ++ p.raw ++ p.base = trim s.toList) ∧
      (∀ r r', ReadAs s r → ReadAs s r' → r = r') ∧
      (isValid s = true → ∃! r, ReadAs s r) ∧
      (isValid s = true → (isRaw s = true ↔ MarkedOutside (trim s.toList))) := by
  refine ⟨fun p => append_parts, fun r r' => ReadAs.eq, fun valid => ?_, fun valid => ?_⟩
  · obtain ⟨r, reads⟩ := exists_readAs_of_isValid valid
    exact ⟨r, reads, fun r' reads' => reads'.eq reads⟩
  · obtain ⟨r, reads⟩ := exists_readAs_of_isValid valid
    exact reads.isRaw_iff

/-- The mark in the brackets does not count, the one behind them does. -/
theorem one_reading_sized :
    (isValid "[a!]s32" = true ∧ isRaw "[a!]s32" = false ∧ ¬ MarkedOutside "[a!]s32".toList) ∧
      (isValid "[a!]!s32" = true ∧ isRaw "[a!]!s32" = true ∧ MarkedOutside "[a!]!s32".toList) ∧
      ∃! r, ReadAs "[a!]!s32" r := by
  obtain ⟨-, -, -, plain⟩ := one_reading "[a!]s32"
  obtain ⟨-, -, one, raw⟩ := one_reading "[a!]!s32"
  have valid : isValid "[a!]s32" = true := by decide
  have valid' : isValid "[a!]!s32" = true := by decide
  rw [show trim "[a!]s32".toList = "[a!]s32".toList by decide] at plain
  rw [show trim "[a!]!s32".toList = "[a!]!s32".toList by decide] at raw
  refine ⟨⟨valid, by decide, fun marked => ?_⟩, ⟨valid', by decide, (raw valid').mp (by decide)⟩,
    one valid'⟩
  exact absurd ((plain valid).mpr marked) (by decide)

end Specifier

end WatchView
