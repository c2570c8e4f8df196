import Mathlib.Data.List.Induction
import WatchView.Proofs.Text
/-!
# Nested brackets

A text is well nested for some kinds of brackets (`Nested`) if it is a row of
characters that are neither brackets of these kinds nor quotes, of string and
character literals, and of groups: a bracket, a well nested text and the bracket
that closes it. In a literal a backslash makes the next character part of it;
brackets in literals do not count.

A text that is well nested ends in one of three ways (`Nested.ends`), and from
the end it can be taken apart: characters that are no delimiters can be dropped,
and a closing bracket closes a group.
-/

namespace WatchView.Text

/-- Kinds of brackets: the opening and the closing one of each. -/
abbrev Brackets := List (Char × Char)

/-- The characters that begin and end literals. -/
def quotes : List Char := ['"', '\'']

/-- The characters that are not text outside of literals. -/
def delimiters (kinds : Brackets) : List Char := quotes ++ kinds.flatMap fun p => [p.1, p.2]

/-- **The inside of a literal** between two quotes. -/
inductive IsLiteral (quote : Char) : List Char → Prop
  | nil : IsLiteral quote []
  | char {c : Char} {cs : List Char} (other : c ≠ quote) (unescaped : c ≠ '\\')
      (rest : IsLiteral quote cs) : IsLiteral quote (c :: cs)
  | escape (c : Char) {cs : List Char} (rest : IsLiteral quote cs) :
      IsLiteral quote ('\\' :: c :: cs)

/-- **Well nested texts**, for some kinds of brackets. -/
inductive Nested (kinds : Brackets) : List Char → Prop
  | nil : Nested kinds []
  | char {c : Char} {cs : List Char} (plain : c ∉ delimiters kinds) (rest : Nested kinds cs) :
      Nested kinds (c :: cs)
  | literal {quote : Char} {body cs : List Char} (isQuote : quote ∈ quotes)
      (inside : IsLiteral quote body) (rest : Nested kinds cs) :
      Nested kinds (quote :: (body ++ quote :: cs))
  | group {left right : Char} {inner cs : List Char} (kind : (left, right) ∈ kinds)
      (inside : Nested kinds inner) (rest : Nested kinds cs) :
      Nested kinds (left :: (inner ++ right :: cs))

variable {kinds : Brackets} {quote c left right : Char} {as bs cs inner : List Char}

theorem IsLiteral.append (h : IsLiteral quote as) (h' : IsLiteral quote bs) :
    IsLiteral quote (as ++ bs) := by
  induction h with
  | nil => exact h'
  | char other unescaped _ ih => exact .char other unescaped ih
  | escape c _ ih => exact .escape c ih

namespace Nested

/-! ## Putting together -/

theorem append (h : Nested kinds as) (h' : Nested kinds bs) : Nested kinds (as ++ bs) := by
  induction h with
  | nil => exact h'
  | char plain _ ih => exact .char plain ih
  | literal isQuote inside _ ih =>
    rw [List.cons_append, List.append_assoc]
    exact .literal isQuote inside ih
  | group kind inside _ _ ih =>
    rw [List.cons_append, List.append_assoc]
    exact .group kind inside ih

/-- **A text that is well nested for more kinds is well nested for fewer**, if the
others do not share a character with these. -/
theorem of_more {more : Brackets} (sub : delimiters kinds ⊆ delimiters more)
    (others : ∀ p ∈ more, p ∈ kinds ∨ p.1 ∉ delimiters kinds ∧ p.2 ∉ delimiters kinds)
    (h : Nested more cs) : Nested kinds cs := by
  induction h with
  | nil => exact .nil
  | char plain _ ih => exact .char (fun mem => plain (sub mem)) ih
  | literal isQuote inside _ ih => exact .literal isQuote inside ih
  | group kind _ _ ih ih' =>
    rcases others _ kind with same | ⟨left, right⟩
    · exact .group same ih ih'
    · exact .char left (ih.append (.char right ih'))

/-! ## Taking apart -/

/-- **The ends a well nested text can have.** -/
inductive Ends (kinds : Brackets) : List Char → Prop
  /-- A character that is no delimiter. -/
  | char {front : List Char} {c : Char} (before : Nested kinds front)
      (plain : c ∉ delimiters kinds) : Ends kinds (front ++ [c])
  /-- The end of a literal. -/
  | literal {front : List Char} {quote : Char} (isQuote : quote ∈ quotes) :
      Ends kinds (front ++ [quote])
  /-- The end of a group. -/
  | group {front inner : List Char} {left right : Char} (kind : (left, right) ∈ kinds)
      (before : Nested kinds front) (inside : Nested kinds inner) :
      Ends kinds (front ++ left :: inner ++ [right])

theorem Ends.append (h : Ends kinds cs) (front : Nested kinds as) : Ends kinds (as ++ cs) := by
  cases h with
  | char before plain =>
    rw [← List.append_assoc]
    exact .char (front.append before) plain
  | literal isQuote =>
    rw [← List.append_assoc]
    exact .literal isQuote
  | group kind before inside =>
    rw [← List.append_assoc, ← List.append_assoc]
    exact .group kind (front.append before) inside

/-- **A well nested text that is not empty has such an end.** -/
theorem ends (h : Nested kinds cs) (nonempty : cs ≠ []) : Ends kinds cs := by
  -- a piece with nothing behind it is the end, else what is behind it has the end
  have piece {front rest : List Char} (here : Nested kinds front) (last : Ends kinds front)
      (ih : rest ≠ [] → Ends kinds rest) : Ends kinds (front ++ rest) := by
    rcases eq_or_ne rest [] with rfl | more
    · rwa [List.append_nil]
    · exact (ih more).append here
  induction h with
  | nil => exact absurd rfl nonempty
  | @char c cs plain rest ih =>
    exact piece (.char plain .nil) (Ends.char .nil plain) ih
  | @literal quote body cs isQuote inside rest ih =>
    rw [List.append_cons, ← List.cons_append]
    have last : Ends kinds (quote :: body ++ [quote]) := .literal isQuote
    exact piece (.literal isQuote inside .nil) last ih
  | @group left right inner cs kind inside rest _ ih =>
    rw [List.append_cons, ← List.cons_append]
    exact piece (.group kind inside .nil) (Ends.group kind .nil inside) ih

theorem right_mem_delimiters (kind : (left, right) ∈ kinds) : right ∈ delimiters kinds :=
  List.mem_append_right _ (List.mem_flatMap.mpr ⟨_, kind, by simp⟩)

/-- A character at the end that is no delimiter can be dropped. -/
theorem of_concat (plain : c ∉ delimiters kinds) (h : Nested kinds (cs ++ [c])) :
    Nested kinds cs := by
  generalize same : cs ++ [c] = text at h
  cases h.ends (by simp [← same]) with
  | char before _ =>
    obtain ⟨rfl, -⟩ := List.append_inj' same rfl
    exact before
  | literal isQuote =>
    obtain ⟨-, last⟩ := List.append_inj' same rfl
    obtain rfl := List.singleton_inj.mp last
    exact absurd (List.mem_append_left _ isQuote) plain
  | group kind _ _ =>
    obtain ⟨-, last⟩ := List.append_inj' same rfl
    obtain rfl := List.singleton_inj.mp last
    exact absurd (right_mem_delimiters kind) plain

theorem of_append_plain (plain : ∀ c ∈ bs, c ∉ delimiters kinds)
    (h : Nested kinds (as ++ bs)) : Nested kinds as := by
  induction bs using List.reverseRecOn with
  | nil => rwa [List.append_nil] at h
  | append_singleton bs c ih =>
    obtain ⟨plain, here⟩ := List.forall_mem_append.mp plain
    rw [← List.append_assoc] at h
    exact ih plain (h.of_concat (here c (by simp)))

/-- A character in front that is no delimiter can be dropped. -/
theorem of_plain_append (plain : ∀ c ∈ as, c ∉ delimiters kinds)
    (h : Nested kinds (as ++ bs)) : Nested kinds bs := by
  induction as with
  | nil => exact h
  | cons c as ih =>
    obtain ⟨here, plain⟩ := List.forall_mem_cons.mp plain
    generalize same : c :: as ++ bs = text at h
    cases h with
    | nil => cases same
    | char _ rest =>
      obtain ⟨-, rfl⟩ := List.cons.inj same
      exact ih plain rest
    | literal isQuote _ _ =>
      obtain ⟨rfl, -⟩ := List.cons.inj same
      exact absurd (List.mem_append_left _ isQuote) here
    | group kind _ _ =>
      obtain ⟨rfl, -⟩ := List.cons.inj same
      exact absurd (List.mem_append_right _ (List.mem_flatMap.mpr ⟨_, kind, by simp⟩)) here

/-- **A closing bracket at the end closes a group.** -/
theorem exists_group (closes : c ∈ delimiters kinds) (noQuote : c ∉ quotes)
    (h : Nested kinds (cs ++ [c])) : ∃ left front inner, (left, c) ∈ kinds ∧
      cs = front ++ left :: inner ∧ Nested kinds front ∧ Nested kinds inner := by
  generalize same : cs ++ [c] = text at h
  cases h.ends (by simp [← same]) with
  | char _ plain =>
    obtain ⟨-, last⟩ := List.append_inj' same rfl
    obtain rfl := List.singleton_inj.mp last
    exact absurd closes plain
  | literal isQuote =>
    obtain ⟨-, last⟩ := List.append_inj' same rfl
    obtain rfl := List.singleton_inj.mp last
    exact absurd isQuote noQuote
  | group kind before inside =>
    obtain ⟨rfl, last⟩ := List.append_inj' same rfl
    obtain rfl := List.singleton_inj.mp last
    exact ⟨_, _, _, kind, rfl, before, inside⟩

/-- No well nested text ends with a bracket that closes nothing. -/
theorem not_concat_left (opens : c ∈ delimiters kinds) (noQuote : c ∉ quotes)
    (closesNone : ∀ left, (left, c) ∉ kinds) : ¬ Nested kinds (cs ++ [c]) := by
  intro h
  obtain ⟨left, -, -, kind, -⟩ := exists_group opens noQuote h
  exact closesNone left kind

/-- Characters of a class are no delimiters if no delimiter is in the class. -/
theorem plain_of_all {p : Char → Bool} (solid : (delimiters kinds).any p = false)
    (h : cs.all p = true) : ∀ c ∈ cs, c ∉ delimiters kinds :=
  fun c mem delimiter =>
    List.any_eq_false.mp solid c delimiter (List.all_eq_true.mp h c mem)

/-- **Blanks at the ends can be dropped**, if blanks are no delimiters. -/
theorem trim (solid : (delimiters kinds).any isBlank = false) (h : Nested kinds cs) :
    Nested kinds (trim cs) := by
  obtain ⟨b, z, first, last, same⟩ := exists_trim_append cs
  rw [same] at h
  exact of_plain_append (plain_of_all solid first) (h.of_append_plain (plain_of_all solid last))

end Nested

end WatchView.Text
