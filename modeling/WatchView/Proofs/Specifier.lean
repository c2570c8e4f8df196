import WatchView.Proofs.Text
import WatchView.Specifier
/-!
# The shapes of valid specifiers

A valid specifier, trimmed, has one of three shapes (`Shape`): a row of letters,
digits and marks; a call with such a row in its parentheses; or a size in square
brackets with such a row behind it, which may then follow a size. So apart from
the brackets of a size, whatever is in them, a valid specifier has no brackets
but the parentheses of a call, no quotes and no commas.
-/

namespace WatchView

namespace Specifier

open Text

variable {cs : List Char} {s : String}

/-- The characters of a valid specifier outside its brackets. -/
def isFlat (c : Char) : Bool := isBlank c || isIdent c || c == '!' || c == '+'

theorem isFlat_of_isBlank {c : Char} (h : isBlank c = true) : isFlat c = true := by
  simp [isFlat, h]

theorem isFlat_of_isIdent {c : Char} (h : isIdent c = true) : isFlat c = true := by
  simp [isFlat, h]

/-- A text is flat if it is flat once trimmed. -/
theorem all_isFlat_of_trim (h : (trim cs).all isFlat = true) : cs.all isFlat = true := by
  obtain ⟨b, z, first, last, same⟩ := exists_trim_append cs
  rw [same, List.all_append, List.all_append, h, all_of_imp (fun _ => isFlat_of_isBlank) first,
    all_of_imp (fun _ => isFlat_of_isBlank) last]
  rfl

/-- **The shapes of trimmed specifiers.** -/
inductive Shape : List Char → Prop
  /-- Letters, digits and marks. -/
  | flat {cs : List Char} (flat : cs.all isFlat = true) : Shape cs
  /-- A view, or a child. -/
  | call {front argument : List Char} (name : front.all isFlat = true)
      (flat : argument.all isFlat = true) : Shape (front ++ '(' :: (argument ++ [')']))
  /-- A size in square brackets. -/
  | sized {front suffix : List Char} (isSuffix : isSizeSuffix (String.ofList suffix) = true) :
      Shape (front ++ ']' :: suffix)

/-! ## The raw mark -/

theorem append_cutRaw (cs : List Char) : (cutRaw cs).1 ++ (cutRaw cs).2 = cs := by
  unfold cutRaw
  split <;> rfl

theorem all_cutRaw (cs : List Char) : (cutRaw cs).1.all (· == '!') = true := by
  unfold cutRaw
  split <;> rfl

theorem cutRaw_of_head (h : cs.head? ≠ some '!') : cutRaw cs = ([], cs) := by
  unfold cutRaw
  split
  · exact absurd rfl h
  · exact absurd rfl h
  · rfl

theorem isFlat_cutRaw (cs : List Char) : (cutRaw cs).1.all isFlat = true :=
  all_of_imp (fun c mark => by simp [isFlat, eq_of_beq mark]) (all_cutRaw cs)

/-! ## Calls -/

theorem exists_of_argumentOf? {function : String} {argument : List Char}
    (h : argumentOf? function cs = some argument) :
    ∃ gap : List Char, gap.all isBlank = true ∧
      cs = function.toList ++ (gap ++ '(' :: (argument ++ [')'])) := by
  obtain ⟨behind, name, h⟩ := Option.bind_eq_some_iff.mp h
  obtain ⟨inside, opened, closed⟩ := Option.bind_eq_some_iff.mp h
  refine ⟨behind.takeWhile isBlank, List.all_takeWhile, ?_⟩
  rw [dropHead?_eq_some_iff.mp name, ← dropTail?_eq_some_iff.mp closed,
    ← List.singleton_append, ← dropHead?_eq_some_iff.mp opened, trimStart,
    List.takeWhile_append_dropWhile]

theorem shape_of_argumentOf? {function : String} {argument : List Char}
    (name : function.toList.all isFlat = true) (flat : (trim argument).all isFlat = true)
    (h : argumentOf? function (withoutRaw s) = some argument) : Shape (trim s.toList) := by
  obtain ⟨gap, blank, same⟩ := exists_of_argumentOf? h
  rw [← append_cutRaw (trim s.toList), show (cutRaw (trim s.toList)).2 = _ from same,
    ← List.append_assoc, ← List.append_assoc]
  refine .call ?_ (all_isFlat_of_trim flat)
  rw [List.all_append, List.all_append, name, isFlat_cutRaw,
    all_of_imp (fun _ => isFlat_of_isBlank) blank]
  rfl

theorem shape_of_viewName? (h : (viewName? s).isSome = true) : Shape (trim s.toList) := by
  obtain ⟨view, h⟩ := Option.isSome_iff_exists.mp h
  obtain ⟨argument, call, h⟩ := Option.bind_eq_some_iff.mp h
  refine shape_of_argumentOf? (by decide) ?_ call
  dsimp only at h
  split at h
  · rename_i named
    exact all_of_imp (fun _ => isFlat_of_isIdent) (Bool.and_eq_true_iff.mp named).2
  · cases h

theorem isDigit_of_digitValue_lt {c : Char} (h : digitValue c < 10) : c.isDigit = true := by
  unfold digitValue at h
  split at h
  · rename_i digit
    exact isDigit_iff.mpr digit
  · split at h
    · omega
    · split at h <;> omega

theorem isDigit_of_digits? {bound n : Nat} (h : digits? 10 bound cs = some n) :
    cs.all Char.isDigit = true := by
  unfold digits? at h
  split at h
  · rename_i valid
    have digits := (Bool.and_eq_true_iff.mp (Bool.and_eq_true_iff.mp valid).1).2
    exact all_of_imp (fun _ small => isDigit_of_digitValue_lt (of_decide_eq_true small)) digits
  · cases h

theorem isFlat_of_digits? {bound n : Nat} (h : digits? 10 bound cs = some n) :
    cs.all isFlat = true :=
  all_of_imp (fun _ digit => isFlat_of_isIdent (isIdent_of_isDigit digit)) (isDigit_of_digits? h)

theorem isFlat_of_numeral? {bound n : Nat} (h : numeral? 10 bound cs = some n) :
    cs.all isFlat = true := by
  unfold numeral? at h
  split at h
  · rw [List.all_cons, isFlat_of_digits? h]
    decide
  · exact isFlat_of_digits? h

theorem shape_of_expandIndex? (h : (expandIndex? s).isSome = true) : Shape (trim s.toList) := by
  obtain ⟨index, h⟩ := Option.isSome_iff_exists.mp h
  obtain ⟨argument, call, h⟩ := Option.bind_eq_some_iff.mp h
  exact shape_of_argumentOf? (by decide) (isFlat_of_numeral? h) call

/-! ## Sizes and base formats -/

theorem isIdent_of_isBaseShape (h : isBaseShape cs = true) : cs.all isIdent = true := by
  cases cs with
  | nil => rfl
  | cons c cs =>
    obtain ⟨first, rest⟩ := Bool.and_eq_true_iff.mp h
    rw [List.all_cons, Bool.and_eq_true]
    exact ⟨by simp [isIdent, Char.isAlphanum, first],
      List.all_eq_true.mpr fun d mem => by simp [isIdent, List.all_eq_true.mp rest d mem]⟩

theorem append_cutSize (cs : List Char) : (cutSize cs).1 ++ (cutSize cs).2 = cs := by
  unfold cutSize
  split
  · rename_i tail
    cases cut : cutAfterLast? ']' ('[' :: tail) with
    | none => rfl
    | some p => exact append_of_cutAfterLast? cut
  · dsimp only
    split
    · rfl
    · simp
  · split
    · exact List.takeWhile_append_dropWhile
    · rfl
  · rfl

theorem isIdent_of_isHexDigit {c : Char} (h : isHexDigit c = true) : isIdent c = true := by
  rcases Bool.or_eq_true_iff.mp h with digit | letter
  · exact isIdent_of_isDigit digit
  · obtain ⟨low, high⟩ := Bool.and_eq_true_iff.mp letter
    have low : 97 ≤ c.toNat := of_decide_eq_true low
    have high : c.toNat ≤ 102 := of_decide_eq_true high
    have alpha : c.isAlpha = true := isAlpha_iff.mpr (.inr ⟨low, by omega⟩)
    simp [isIdent, Char.isAlphanum, alpha]

theorem isIdent_cutSize (h : cs.head? ≠ some '[') : (cutSize cs).1.all isIdent = true := by
  have taken {p : Char → Bool} (imp : ∀ c, p c = true → isIdent c = true) (ds : List Char) :
      (ds.takeWhile p).all isIdent = true := all_of_imp imp List.all_takeWhile
  unfold cutSize
  split
  · exact absurd rfl h
  · dsimp only
    split
    · rfl
    · rw [List.all_cons, List.all_cons, taken (fun _ => isIdent_of_isHexDigit)]
      decide
  · split
    · exact taken (fun _ => isIdent_of_isDigit) _
    · rfl
  · rfl

/-- What stands behind a size in brackets may follow a size. -/
theorem isSizeSuffix_of_base {behind : List Char} (shape : isBaseShape (cutRaw behind).2 = true)
    (known : baseFormats.contains (String.ofList (cutRaw behind).2) = true) :
    isSizeSuffix (String.ofList behind) = true := by
  have noBlank : ∀ c ∈ behind, isBlank c = false := by
    intro c mem
    rw [← append_cutRaw behind] at mem
    rcases List.mem_append.mp mem with mark | mem
    · rw [eq_of_beq (List.all_eq_true.mp (all_cutRaw behind) c mark)]
      decide
    · exact not_isBlank_of_isIdent (List.all_eq_true.mp (isIdent_of_isBaseShape shape) c mem)
  rw [isSizeSuffix, withoutRaw, String.toList_ofList, trim_of_forall_noBlank noBlank]
  exact known

/-- What may follow a size is a row of letters, digits and marks. -/
theorem isFlat_of_isSizeSuffix (h : isSizeSuffix (String.ofList cs) = true) :
    cs.all isFlat = true := by
  have known : ∀ f ∈ baseFormats, f.toList.all isFlat = true := by decide +kernel
  have base := known _ (List.contains_iff_mem.mp h)
  rw [withoutRaw, String.toList_ofList, String.toList_ofList] at base
  apply all_isFlat_of_trim
  rw [← append_cutRaw (trim cs), List.all_append, isFlat_cutRaw, base]
  rfl

/-- Blanks at the end do not matter to what may follow a size. -/
theorem isSizeSuffix_append_blank {b : List Char} (blank : b.all isBlank = true) :
    isSizeSuffix (String.ofList (cs ++ b)) = isSizeSuffix (String.ofList cs) := by
  simp only [isSizeSuffix, withoutRaw, String.toList_ofList, trim_append_right blank]

theorem shape_of_parts? {parts : Parts} (h : parts? s = some parts)
    (known : baseFormats.contains (String.ofList parts.base) = true) : Shape (trim s.toList) := by
  unfold parts? at h
  dsimp only at h
  generalize trim s.toList = cs at h
  split at h
  · rename_i shape
    obtain rfl := Option.some.inj h
    dsimp only at known
    -- a size in brackets may hold anything up to the last bracket, and everything else is flat
    by_cases bracket : cs.head? = some '['
    · obtain ⟨rest, rfl⟩ := List.head?_eq_some_iff.mp bracket
      cases cut : cutAfterLast? ']' ('[' :: rest) with
      | none =>
        have whole : (cutSize ('[' :: rest)).2 = '[' :: rest := by simp [cutSize, cut]
        rw [whole] at shape
        exact absurd shape (by simp [cutRaw, isBaseShape])
      | some p =>
        obtain ⟨upTo, behind⟩ := p
        have split : (cutSize ('[' :: rest)).2 = behind := by simp [cutSize, cut]
        rw [split] at shape known
        obtain ⟨-, front, -, same⟩ := cutAfterLast?_eq_some_iff.mp cut
        rw [same]
        exact .sized (isSizeSuffix_of_base shape known)
    · refine .flat ?_
      have size := all_of_imp (fun _ => isFlat_of_isIdent) (isIdent_cutSize bracket)
      have base := all_of_imp (fun _ => isFlat_of_isIdent) (isIdent_of_isBaseShape shape)
      have same : cs = (cutSize cs).1 ++ ((cutRaw (cutSize cs).2).1 ++ (cutRaw (cutSize cs).2).2) := by
        rw [append_cutRaw, append_cutSize]
      rw [same, List.all_append, List.all_append, size, isFlat_cutRaw, base]
      rfl
  · cases h

/-- **A valid specifier has one of the three shapes.** -/
theorem shape_of_isValid (h : isValid s = true) : Shape (trim s.toList) := by
  unfold isValid at h
  split at h
  · cases h
  · split at h
    · rename_i called
      rcases Bool.or_eq_true_iff.mp called with child | view
      · exact shape_of_expandIndex? child
      · exact shape_of_viewName? view
    · split at h
      · cases h
      · rename_i parts
        exact shape_of_parts? parts (Bool.and_eq_true_iff.mp h).1

theorem not_mem_of_isFlat {c : Char} (other : isFlat c = false) (h : cs.all isFlat = true) :
    c ∉ cs :=
  fun mem => Bool.eq_false_iff.mp other (List.all_eq_true.mp h c mem)

/-- A closing bracket in a valid specifier is the end of a size. -/
theorem exists_isSizeSuffix_of_mem (valid : isValid (String.ofList (trim cs)) = true)
    (mem : ']' ∈ cs) :
    ∃ front suffix, cs = front ++ ']' :: suffix ∧ isSizeSuffix (String.ofList suffix) = true := by
  obtain ⟨b, z, -, last, same⟩ := exists_trim_append cs
  have mem : ']' ∈ trim cs := mem_trim_of_mem (by decide) mem
  have shape := shape_of_isValid valid
  rw [String.toList_ofList, trim_trim] at shape
  generalize trim cs = text at mem shape same
  cases shape with
  | flat flat => exact absurd mem (not_mem_of_isFlat (by decide) flat)
  | call name flat =>
    have := not_mem_of_isFlat (c := ']') (by decide) name
    have := not_mem_of_isFlat (c := ']') (by decide) flat
    simp_all
  | @sized front suffix isSuffix =>
    refine ⟨b ++ front, suffix ++ z, ?_, ?_⟩
    · rw [same, List.append_assoc, List.append_assoc, List.append_assoc, List.cons_append]
    · rw [isSizeSuffix_append_blank last, isSuffix]

end Specifier

end WatchView
