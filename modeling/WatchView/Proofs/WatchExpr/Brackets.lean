import WatchView.Proofs.Nesting
import WatchView.WatchExpr
/-!
# The bracket that the last one closes

The walk that looks for the opening bracket of a size keeps a list of the
brackets that are open and the quote of the literal it is in. A state of the
walk is read back as what was read of the text (`Reached`): well nested texts,
each behind an open bracket, and perhaps the beginning of a literal.

`openingBracket?_eq_some_iff` says what the walk finds: the place where the
text in front and the text between the brackets are both well nested, for square
brackets alone.
-/

namespace WatchView

namespace WatchExpr

open Text

/-- Square brackets, the only ones the walk looks at. -/
def squareBrackets : Brackets := [('[', ']')]

variable {cs read inner : List Char} {ps : List Nat} {s s' : BracketScan} {c : Char}

/-! ## Walking over nested texts -/

theorem foldlM_cons_of_step (next : s.step c = some s') (cs : List Char) :
    (c :: cs).foldlM BracketScan.step s = cs.foldlM BracketScan.step s' := by
  rw [List.foldlM_cons, next, Option.bind_eq_bind, Option.bind_some]

theorem foldlM_append_of_walk (walk : read.foldlM BracketScan.step s = some s')
    (cs : List Char) : (read ++ cs).foldlM BracketScan.step s = cs.foldlM BracketScan.step s' := by
  rw [List.foldlM_append, walk, Option.bind_eq_bind, Option.bind_some]

/-- The walk goes over the rest of a literal. -/
theorem foldlM_literal {q : Char} {body : List Char} (isQuote : q ∈ quotes)
    (inside : IsLiteral q body) (n : Nat) (ps : List Nat) (last : Option Nat) :
    (body ++ [q]).foldlM BracketScan.step ⟨n, ps, some q, false, last⟩ =
      some ⟨n + (body.length + 1), ps, none, false, last⟩ := by
  induction inside generalizing n with
  | nil =>
    have solid : q ≠ '\\' := by
      rintro rfl
      exact absurd isQuote (by decide)
    simp [BracketScan.step, solid]
  | @char c body other unescaped _ ih =>
    have next : BracketScan.step ⟨n, ps, some q, false, last⟩ c =
        some ⟨n + 1, ps, some q, false, last⟩ := by
      simp [BracketScan.step, other, unescaped]
    rw [List.cons_append, foldlM_cons_of_step next, ih, List.length_cons]
    congr 2
    omega
  | @escape c body _ ih =>
    have next : ('\\' :: c :: (body ++ [q])).foldlM BracketScan.step ⟨n, ps, some q, false, last⟩ =
        (body ++ [q]).foldlM BracketScan.step ⟨n + 1 + 1, ps, some q, false, last⟩ := rfl
    rw [List.cons_append, List.cons_append, next, ih, List.length_cons, List.length_cons]
    congr 2
    omega

/-- **The walk goes over a nested text** and leaves the open brackets as they are. -/
theorem foldlM_nested (nested : Nested squareBrackets cs) (n : Nat) (ps : List Nat)
    (last : Option Nat) :
    ∃ last', cs.foldlM BracketScan.step ⟨n, ps, none, false, last⟩ =
      some ⟨n + cs.length, ps, none, false, last'⟩ := by
  -- by induction on the nesting: the walk inside brackets has one more position open
  induction nested generalizing n ps last with
  | nil => exact ⟨last, rfl⟩
  | @char c cs plain _ ih =>
    obtain ⟨last', walk⟩ := ih (n + 1) ps last
    have next : BracketScan.step ⟨n, ps, none, false, last⟩ c =
        some ⟨n + 1, ps, none, false, last⟩ := by
      have plain : c ≠ '"' ∧ c ≠ '\'' ∧ c ≠ '[' ∧ c ≠ ']' := by
        simpa [delimiters, quotes, squareBrackets] using plain
      simp [BracketScan.step, plain]
    refine ⟨last', ?_⟩
    rw [foldlM_cons_of_step next, walk, List.length_cons, Nat.add_right_comm, Nat.add_assoc]
  | @literal q body cs isQuote inside _ ih =>
    obtain ⟨last', walk⟩ := ih (n + 1 + (body.length + 1)) ps last
    have next : BracketScan.step ⟨n, ps, none, false, last⟩ q =
        some ⟨n + 1, ps, some q, false, last⟩ := by
      have either : q = '"' ∨ q = '\'' := by simpa [quotes] using isQuote
      simp [BracketScan.step, either]
    refine ⟨last', ?_⟩
    rw [List.append_cons, foldlM_cons_of_step next,
      foldlM_append_of_walk (foldlM_literal isQuote inside _ _ _), walk]
    congr 2
    simp only [List.length_cons, List.length_append, List.length_nil]
    omega
  | @group left right inner cs kind _ _ ih ih' =>
    obtain ⟨rfl, rfl⟩ := Prod.mk.inj (List.mem_singleton.mp kind)
    obtain ⟨last', walk⟩ := ih (n + 1) (n :: ps) last
    obtain ⟨last'', walk'⟩ := ih' (n + 1 + inner.length + 1) ps (some n)
    refine ⟨last'', ?_⟩
    have opens : BracketScan.step ⟨n, ps, none, false, last⟩ '[' =
        some ⟨n + 1, n :: ps, none, false, last⟩ := rfl
    have closes : BracketScan.step ⟨n + 1 + inner.length, n :: ps, none, false, last'⟩ ']' =
        some ⟨n + 1 + inner.length + 1, ps, none, false, some n⟩ := rfl
    rw [foldlM_cons_of_step opens, foldlM_append_of_walk walk, foldlM_cons_of_step closes, walk']
    congr 2
    simp only [List.length_cons, List.length_append]
    omega

/-! ## What was read -/

/-- **The brackets open in a text**, by their positions: well nested texts, each
behind an open bracket. -/
inductive Opened : List Char → List Nat → Prop
  | none {cs : List Char} (nested : Nested squareBrackets cs) : Opened cs []
  | bracket {cs inner : List Char} {ps : List Nat} (outer : Opened cs ps)
      (nested : Nested squareBrackets inner) : Opened (cs ++ '[' :: inner) (cs.length :: ps)

theorem Opened.append (h : Opened cs ps) (nested : Nested squareBrackets inner) :
    Opened (cs ++ inner) ps := by
  cases h with
  | none before => exact .none (before.append nested)
  | bracket outer before =>
    rw [List.append_assoc, List.cons_append]
    exact .bracket outer (before.append nested)

/-- **What was read when the walk is in a state.** -/
inductive Reached : List Char → BracketScan → Prop
  | outside {read : List Char} {ps : List Nat} (opened : Opened read ps) (last : Option Nat) :
      Reached read ⟨read.length, ps, none, false, last⟩
  /-- In a literal, behind a character of it or behind its first quote. -/
  | literal {front body : List Char} {q : Char} {ps : List Nat} (opened : Opened front ps)
      (isQuote : q ∈ quotes) (inside : IsLiteral q body) (last : Option Nat) :
      Reached (front ++ q :: body) ⟨(front ++ q :: body).length, ps, some q, false, last⟩
  /-- In a literal, behind a backslash. -/
  | escape {front body : List Char} {q : Char} {ps : List Nat} (opened : Opened front ps)
      (isQuote : q ∈ quotes) (inside : IsLiteral q body) (last : Option Nat) :
      Reached (front ++ q :: body ++ ['\\'])
        ⟨(front ++ q :: body ++ ['\\']).length, ps, some q, true, last⟩

/-- **A step reads one more character.** -/
theorem Reached.step (h : Reached read s) (next : s.step c = some s') :
    Reached (read ++ [c]) s' := by
  have longer : read.length + 1 = (read ++ [c]).length := by simp
  -- outside a literal the character may open one, or open or close a bracket; inside it may end it
  -- or escape the next
  cases h with
  | @outside read ps opened last =>
    simp only [BracketScan.step, longer] at next
    split at next
    · rename_i quote
      obtain rfl := Option.some.inj next
      exact .literal opened (by simpa [quotes] using quote) .nil last
    · rename_i noQuote
      split at next
      · rename_i left
        obtain rfl := Option.some.inj next
        rw [left]
        exact .outside (.bracket opened .nil) last
      · rename_i notLeft
        split at next
        · rename_i right
          subst right
          cases opened with
          | none before => cases next
          | @bracket front inner ps outer nested =>
            rw [List.append_assoc, List.cons_append] at next ⊢
            obtain rfl := Option.some.inj next
            exact .outside (outer.append (.group (.head _) nested .nil)) _
        · rename_i notRight
          obtain rfl := Option.some.inj next
          have plain : c ∉ delimiters squareBrackets := by
            simpa [delimiters, quotes, squareBrackets, notLeft, notRight] using noQuote
          exact .outside (opened.append (.char plain .nil)) last
  | @literal front body q ps opened isQuote inside last =>
    simp only [BracketScan.step, longer] at next
    split at next
    · cases ‹false = true›
    · split at next
      · rename_i backslash
        obtain rfl := Option.some.inj next
        rw [backslash]
        exact .escape opened isQuote inside last
      · rename_i noBackslash
        rw [List.append_assoc, List.cons_append] at next ⊢
        split at next
        · rename_i ends
          obtain rfl := Option.some.inj next
          rw [ends]
          exact .outside (opened.append (.literal isQuote inside .nil)) last
        · rename_i goesOn
          obtain rfl := Option.some.inj next
          exact .literal opened isQuote (inside.append (.char goesOn noBackslash .nil)) last
  | @escape front body q ps opened isQuote inside last =>
    simp only [BracketScan.step, longer, if_true] at next
    obtain rfl := Option.some.inj next
    rw [List.append_assoc, List.append_assoc, List.cons_append]
    exact .literal opened isQuote (inside.append (.escape c .nil)) last

theorem Reached.run (h : Reached read s) (walk : cs.foldlM BracketScan.step s = some s') :
    Reached (read ++ cs) s' := by
  induction cs generalizing read s with
  | nil =>
    obtain rfl := Option.some.inj walk
    rwa [List.append_nil]
  | cons c cs ih =>
    obtain ⟨t, next, walk⟩ := Option.bind_eq_some_iff.mp walk
    rw [List.append_cons]
    exact ih (h.step next) walk

/-- **The bracket that the last one closes** stands where the texts in front of it
and behind it are both well nested. -/
theorem openingBracket?_eq_some_iff {n : Nat} :
    openingBracket? cs = some n ↔ ∃ front size, cs = front ++ '[' :: size ++ [']'] ∧
      front.length = n ∧ Nested squareBrackets front ∧ Nested squareBrackets size := by
  constructor
  · intro h
    obtain ⟨s, walk, h⟩ := Option.bind_eq_some_iff.mp h
    split at h
    · cases h
    rename_i complete
    have complete : (s.quote = none ∧ s.opened = []) ∧ cs.getLast? = some ']' := by
      simpa using complete
    obtain ⟨⟨noQuote, noneOpen⟩, ends⟩ := complete
    obtain ⟨cs, rfl⟩ := List.getLast?_eq_some_iff.mp ends
    rw [List.foldlM_append] at walk
    obtain ⟨t, before, walk⟩ := Option.bind_eq_some_iff.mp walk
    obtain ⟨u, next, stop⟩ := Option.bind_eq_some_iff.mp walk
    obtain rfl := Option.some.inj stop
    have reached : Reached cs t := Reached.run (.outside (.none .nil) none) before
    cases reached with
    | outside opened last =>
      cases opened with
      | none before => cases next
      | bracket outer inside =>
        obtain rfl := Option.some.inj next
        obtain rfl : _ = n := Option.some.inj h
        obtain rfl : _ = [] := noneOpen
        cases outer with
        | none before => exact ⟨_, _, rfl, rfl, before, inside⟩
    | @literal front body q ps opened isQuote inside last =>
      -- no literal ends with a bracket
      have other : ']' ≠ q := by
        rintro rfl
        exact absurd isQuote (by decide)
      simp only [BracketScan.step, Bool.false_eq_true, if_false, other] at next
      rw [if_neg (by decide)] at next
      rw [← Option.some.inj next] at noQuote
      cases noQuote
    | escape opened isQuote inside last =>
      obtain rfl := Option.some.inj next
      cases noQuote
  · rintro ⟨front, size, rfl, rfl, before, inside⟩
    obtain ⟨last, walk⟩ := foldlM_nested before 0 [] none
    obtain ⟨last', walk'⟩ := foldlM_nested inside (0 + front.length + 1) [0 + front.length] last
    have opens : BracketScan.step ⟨0 + front.length, [], none, false, last⟩ '[' =
        some ⟨0 + front.length + 1, [0 + front.length], none, false, last⟩ := rfl
    have whole : (front ++ '[' :: size ++ [']']).foldlM BracketScan.step {} =
        some ⟨0 + front.length + 1 + size.length + 1, [], none, false, some (0 + front.length)⟩ := by
      rw [List.append_assoc, foldlM_append_of_walk walk, List.cons_append,
        foldlM_cons_of_step opens, foldlM_append_of_walk walk']
      rfl
    have ends : (front ++ '[' :: size ++ [']']).getLast? = some ']' := List.getLast?_concat
    rw [openingBracket?, whole, Option.bind_eq_bind, Option.bind_some, ends]
    simp

end WatchExpr

end WatchView
