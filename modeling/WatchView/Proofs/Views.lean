import WatchView.Proofs.Text
import WatchView.Specifier
/-!
# Lists of views

The entries of a list are the stretches between its semicolons (`IsPiece`), trimmed. A rule
is meant to show for a value (`Shows`) if its include list is blank or names the view of the
value, and its exclude list does not name it; an entry that is empty names no view.

For a value with a view of its own it is so. But a value without one is in the view named by
the empty text, and the empty entries of a list name that: those in front of a leading
semicolon, behind a trailing one and between doubled ones. So a list with an empty entry
includes or excludes such a value (`admitsView_iff`, `admitsView_trailing_semicolon`).
-/

namespace WatchView

namespace Text

variable {sep : Char} {cs as bs piece : List Char}

/-- A stretch of a text between separators: there is none in it, and on either side stands
a separator or the end of the text. -/
structure IsPiece (sep : Char) (piece cs : List Char) : Prop where
  noSeparator : sep ∉ piece
  stands : ∃ front behind, cs = front ++ piece ++ behind ∧
    (front = [] ∨ front.getLast? = some sep) ∧ (behind = [] ∨ behind.head? = some sep)

theorem splitAt_of_notMem (h : sep ∉ cs) : splitAt sep cs = [cs] := by
  induction cs with
  | nil => rfl
  | cons c cs ih =>
    obtain ⟨other, behind⟩ := not_or.mp (mt List.mem_cons.mpr h)
    rw [splitAt, if_neg (Ne.symm other), ih behind]

theorem splitAt_ne_nil (sep : Char) (cs : List Char) : splitAt sep cs ≠ [] := by
  cases cs with
  | nil => exact List.cons_ne_nil _ _
  | cons c cs =>
    rw [splitAt]
    split
    · exact List.cons_ne_nil _ _
    · split
      · exact List.cons_ne_nil _ _
      · exact List.cons_ne_nil _ _

/-- A text falls apart at each of its separators. -/
theorem splitAt_append (as bs : List Char) :
    splitAt sep (as ++ sep :: bs) = splitAt sep as ++ splitAt sep bs := by
  induction as with
  | nil => simp [splitAt]
  | cons a as ih =>
    rw [List.cons_append, splitAt, splitAt, ih]
    split
    · rfl
    · obtain ⟨first, more, pieces⟩ := List.exists_cons_of_ne_nil (splitAt_ne_nil sep as)
      rw [pieces]
      rfl

theorem isPiece_self (h : sep ∉ cs) : IsPiece sep cs cs :=
  ⟨h, [], [], by simp, .inl rfl, .inl rfl⟩

/-- The stretches in front of a separator are stretches of the whole text. -/
theorem IsPiece.append (h : IsPiece sep piece as) (bs : List Char) :
    IsPiece sep piece (as ++ sep :: bs) := by
  obtain ⟨noSeparator, front, behind, rfl, first, last⟩ := h
  refine ⟨noSeparator, front, behind ++ sep :: bs, by simp, first, .inr ?_⟩
  rcases last with rfl | last
  · rfl
  · rw [List.head?_append, last, Option.some_or]

/-- And so are the stretches behind it. -/
theorem IsPiece.append_left (h : IsPiece sep piece bs) (as : List Char) :
    IsPiece sep piece (as ++ sep :: bs) := by
  obtain ⟨noSeparator, front, behind, rfl, first, last⟩ := h
  refine ⟨noSeparator, as ++ sep :: front, behind, by simp, .inr ?_, last⟩
  rcases first with rfl | first
  · exact List.getLast?_concat
  · rw [List.getLast?_append, List.getLast?_cons, first]
    rfl

theorem isPiece_of_mem_splitAt (cs : List Char) (h : piece ∈ splitAt sep cs) :
    IsPiece sep piece cs := by
  by_cases mem : sep ∈ cs
  · obtain ⟨as, bs, same⟩ := List.append_of_mem mem
    have length : cs.length = as.length + bs.length + 1 := by rw [same]; simp [Nat.add_assoc]
    rw [same, splitAt_append] at h
    rw [same]
    rcases List.mem_append.mp h with h | h
    · exact (isPiece_of_mem_splitAt as h).append bs
    · exact (isPiece_of_mem_splitAt bs h).append_left as
  · rw [splitAt_of_notMem mem, List.mem_singleton] at h
    subst h
    exact isPiece_self mem
termination_by cs.length
decreasing_by
  · omega
  · omega

/-- **Splitting gives the stretches between separators.** -/
theorem mem_splitAt_iff : piece ∈ splitAt sep cs ↔ IsPiece sep piece cs := by
  refine ⟨isPiece_of_mem_splitAt cs, ?_⟩
  rintro ⟨noSeparator, front, behind, rfl, first, last⟩
  have alone : piece ∈ splitAt sep (piece ++ behind) := by
    rcases last with rfl | last
    · rw [List.append_nil, splitAt_of_notMem noSeparator]
      exact List.mem_cons_self
    · obtain ⟨behind, rfl⟩ := List.head?_eq_some_iff.mp last
      rw [splitAt_append, splitAt_of_notMem noSeparator]
      exact List.mem_cons_self
  rcases first with rfl | first
  · exact alone
  · obtain ⟨front, rfl⟩ := List.getLast?_eq_some_iff.mp first
    rw [List.append_assoc, List.append_assoc, List.singleton_append, splitAt_append]
    exact List.mem_append_right _ alone

end Text

namespace Specifier

open Text

/-- A list names a view if the view is one of its entries that are not empty. -/
def Names (views view : String) : Prop :=
  view ≠ "" ∧ ∃ piece, IsPiece ';' piece views.toList ∧ trim piece = view.toList

/-- A list that is not blank has an empty entry if there is nothing but blanks between two of
its semicolons, in front of the first or behind the last. -/
def HasEmptyEntry (views : String) : Prop :=
  isBlankText views = false ∧ ∃ piece, IsPiece ';' piece views.toList ∧ trim piece = []

/-- A list that is missing or blank. -/
def IsUnlisted (views : Option String) : Prop := ∀ list ∈ views, isBlankText list = true

/-- What the lists say of a value in a view, or in none: the rule shows if the include list
is blank or names the view, and the exclude list does not name it. -/
def Shows (view included excluded : Option String) : Prop :=
  (IsUnlisted included ∨ ∃ name ∈ view, ∃ list ∈ included, Names list name) ∧
    ¬ ∃ name ∈ view, ∃ list ∈ excluded, Names list name

variable {views view : String} {included excluded : Option String}

theorem listsView_iff : listsView views view = true ↔
    ∃ piece, IsPiece ';' piece views.toList ∧ trim piece = view.toList := by
  rw [listsView, List.any_eq_true]
  refine exists_congr fun piece => and_congr mem_splitAt_iff ?_
  rw [beq_iff_eq, ← String.toList_inj, String.toList_ofList]

/-- **A view is looked for among the entries that are not empty.** -/
theorem listsView_iff_names (named : view ≠ "") : listsView views view = true ↔ Names views view :=
  listsView_iff.trans (and_iff_right named).symm

/-- What a value in no view is looked for by are the entries that are empty. -/
theorem hasEmptyEntry_iff_listsView :
    isBlankText views = false ∧ listsView views "" = true ↔ HasEmptyEntry views :=
  and_congr_right fun _ => listsView_iff

/-- A view that is selected has a name. -/
theorem ne_empty_of_viewName? {s : String} (h : viewName? s = some view) : view ≠ "" := by
  obtain ⟨argument, -, h⟩ := Option.bind_eq_some_iff.mp h
  obtain ⟨valid, same⟩ := Option.ite_none_right_eq_some.mp h
  have filled := (Bool.and_eq_true_iff.mp valid).1
  rintro rfl
  rw [Option.some.injEq, ← String.toList_inj, String.toList_ofList] at same
  rw [same] at filled
  cases filled

/-- A blank list names no view. -/
theorem not_names_of_isBlankText (blank : isBlankText views = true) : ¬ Names views view := by
  rintro ⟨named, piece, ⟨-, front, behind, same, -, -⟩, trimmed⟩
  have all : piece.all isBlank = true := by
    rw [isBlankText, same, List.all_append, List.all_append] at blank
    exact (Bool.and_eq_true_iff.mp (Bool.and_eq_true_iff.mp blank).1).2
  rw [trim, trimStart_eq_nil_iff.mpr all] at trimmed
  exact named (String.toList_inj.mp trimmed.symm)

theorem all_viewList?_iff {p : String → Bool} : (viewList? included).all p = true ↔
    IsUnlisted included ∨ ∃ list ∈ included, isBlankText list = false ∧ p list = true := by
  cases included with
  | none => simp [viewList?, IsUnlisted]
  | some list =>
    cases blank : isBlankText list with
    | true => simp [viewList?, IsUnlisted, Option.filter, blank]
    | false => simp [viewList?, IsUnlisted, Option.filter, blank]

theorem any_viewList?_iff {p : String → Bool} : (viewList? excluded).any p = true ↔
    ∃ list ∈ excluded, isBlankText list = false ∧ p list = true := by
  cases excluded with
  | none => simp [viewList?]
  | some list =>
    cases blank : isBlankText list with
    | true => simp [viewList?, Option.filter, blank]
    | false => simp [viewList?, Option.filter, blank]

/-- A list that names a view is not blank. -/
theorem names_iff_listsView (named : view ≠ "") :
    isBlankText views = false ∧ listsView views view = true ↔ Names views view := by
  rw [listsView_iff_names named, and_iff_right_iff_imp]
  exact fun names => Bool.eq_false_iff.mpr fun blank => not_names_of_isBlankText blank names

theorem admitsView_eq_true_iff {s : String} : admitsView s included excluded = true ↔
    (IsUnlisted included ∨ ∃ list ∈ included,
      isBlankText list = false ∧ listsView list ((viewName? s).getD "") = true) ∧
    ¬ ∃ list ∈ excluded,
      isBlankText list = false ∧ listsView list ((viewName? s).getD "") = true := by
  rw [admitsView, Bool.and_eq_true, all_viewList?_iff, Bool.not_eq_true', ← Bool.not_eq_true,
    any_viewList?_iff]

/-- **A value in a view is shown as the lists say.** -/
theorem admitsView_of_some {s : String} (h : viewName? s = some view)
    (included excluded : Option String) :
    admitsView s included excluded = true ↔ Shows (some view) included excluded := by
  have named := ne_empty_of_viewName? h
  rw [admitsView_eq_true_iff, h, Shows]
  simp only [Option.getD_some, names_iff_listsView named, Option.mem_def, Option.some.injEq,
    exists_eq_left']

/-- **A value in no view is shown as the empty entries of the lists say.** -/
theorem admitsView_of_none {s : String} (h : viewName? s = none)
    (included excluded : Option String) :
    admitsView s included excluded = true ↔
      (IsUnlisted included ∨ ∃ list ∈ included, HasEmptyEntry list) ∧
        ¬ ∃ list ∈ excluded, HasEmptyEntry list := by
  rw [admitsView_eq_true_iff, h]
  simp only [Option.getD_none, hasEmptyEntry_iff_listsView]

/-- A value in no view is to be shown if there is no include list. -/
theorem shows_none_iff : Shows none included excluded ↔ IsUnlisted included := by
  simp [Shows]

theorem not_isUnlisted_of_hasEmptyEntry (h : ∃ list ∈ included, HasEmptyEntry list) :
    ¬ IsUnlisted included := by
  obtain ⟨list, mem, filled, -⟩ := h
  intro unlisted
  rw [unlisted list mem] at filled
  cases filled

/-- **When a rule shows for a value.** A value in a view is shown as the lists say. A value in
no view is shown if the include list is blank or has an empty entry, unless the exclude list
has one. So the lists are followed except in two cases, both of a value in no view: where the
include list is blank, an exclude list with an empty entry hides it; and an include list with
an empty entry shows it, if the exclude list has none. -/
theorem admitsView_iff (s : String) (included excluded : Option String) :
    (admitsView s included excluded = true ↔
      match viewName? s with
      | some view => Shows (some view) included excluded
      | none => (IsUnlisted included ∨ ∃ list ∈ included, HasEmptyEntry list) ∧
          ¬ ∃ list ∈ excluded, HasEmptyEntry list) ∧
    ((admitsView s included excluded = true ↔ Shows (viewName? s) included excluded) ↔
      (viewName? s).isSome ∨
        ¬ (IsUnlisted included ∧ ∃ list ∈ excluded, HasEmptyEntry list) ∧
        ¬ ((∃ list ∈ included, HasEmptyEntry list) ∧ ¬ ∃ list ∈ excluded, HasEmptyEntry list)) := by
  cases view : viewName? s with
  | some view' =>
    have shown := admitsView_of_some view included excluded
    exact ⟨shown, iff_of_true shown (.inl rfl)⟩
  | none =>
    have shown := admitsView_of_none view included excluded
    have apart : (∃ list ∈ included, HasEmptyEntry list) → ¬ IsUnlisted included :=
      not_isUnlisted_of_hasEmptyEntry
    refine ⟨shown, ?_⟩
    rw [shown, shows_none_iff]
    simp only [Option.isSome_none, Bool.false_eq_true, false_or]
    generalize (∃ list ∈ included, HasEmptyEntry list) = shows at apart ⊢
    generalize (∃ list ∈ excluded, HasEmptyEntry list) = hides
    by_cases unlisted : IsUnlisted included
    · have noGap : ¬ shows := fun gap => apart gap unlisted
      simp [unlisted, noGap]
    · simp [unlisted]

/-- **A semicolon at the end of a list counts as a view.** A value in no view is hidden by an
exclude list with one, and shown by an include list with one. -/
theorem admitsView_trailing_semicolon :
    ¬ (admitsView "" none (some "simple;") = true ↔
        Shows (viewName? "") none (some "simple;")) ∧
      ¬ (admitsView "" (some "simple;") none = true ↔
        Shows (viewName? "") (some "simple;") none) := by
  have noView : viewName? "" = none := by decide
  have hidden : admitsView "" none (some "simple;") = false := by decide +kernel
  have shown : admitsView "" (some "simple;") none = true := by decide +kernel
  have filled : isBlankText "simple;" ≠ true := by decide
  rw [noView, hidden, shown, shows_none_iff, shows_none_iff]
  refine ⟨fun same => ?_, fun same => ?_⟩
  · cases same.mpr nofun
  · exact filled (same.mp rfl "simple;" rfl)

end Specifier

end WatchView
