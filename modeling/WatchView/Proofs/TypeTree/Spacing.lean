import WatchView.Proofs.TypeTree.Abreast
import WatchView.Proofs.TypeTree.Matching
/-!
# Spacing

Two texts of the same tokens that are read as type names are read as trees of the
same shape. The two derivations go side by side: what each rule takes from one text
is taken from the other by the same rule, and the rests are made of the same tokens
again (`ReadsType.likewise`).

The spelling of a built-in name is copied from its text, blanks included. **So one
of two type names that differ in their blanks alone covers the other if and only if
the names with blanks in them are spelled alike** (`covers_iff_of_tokens`), and
`unsigned int` does not cover itself written with two blanks
(`covers_blanks_differ`).
-/

namespace WatchView.TypeTree

open Text

/-! ## Trees of the same shape -/

/-- Trees that differ in their full names and in the blanks of their base names alone. -/
inductive Likewise : TypeTree → TypeTree → Prop
  | wildcard : Likewise wildcard wildcard
  | named {full full' base base' qualifiers qualifiers' args args' parameters parameters' extent}
      (baseName : unspaced base.toList = unspaced base'.toList)
      (inQualifiers : List.Forall₂ Likewise qualifiers qualifiers')
      (inArgs : List.Forall₂ Likewise args args')
      (inParameters : Option.Rel (List.Forall₂ Likewise) parameters parameters') :
      Likewise (named full base qualifiers args parameters extent)
        (named full' base' qualifiers' args' parameters' extent)

namespace Likewise

variable {t s : TypeTree}

theorem baseName (h : Likewise t s) : unspaced t.baseName.toList = unspaced s.baseName.toList := by
  cases h with
  | wildcard => rfl
  | named base => exact base

theorem extent_eq (h : Likewise t s) : t.extent = s.extent := by
  cases h <;> rfl

theorem parts (h : Likewise t s) (k : Part) : List.Forall₂ Likewise (t.parts k) (s.parts k) := by
  cases h with
  | wildcard => cases k <;> exact .nil
  | named base qualifiers args parameters =>
    cases k with
    | qualifier => exact qualifiers
    | arg => exact args
    | parameter =>
      cases parameters with
      | none => exact .nil
      | some parameters => exact parameters

theorem ofBaseName {base base' : String} (h : unspaced base.toList = unspaced base'.toList) :
    Likewise (ofBaseName base) (ofBaseName base') :=
  .named h .nil .nil .none

end Likewise

-- The induction is on the derivation from the first text; the start of the text decides that
-- the last rule of the other derivation is the same.
mutual

theorem ReadsType.likewise {u t r v s r'} : ReadsType u t r → ReadsType v s r' → Abreast u v →
    Ends closers (trimStart r) → Ends closers (trimStart r') → Likewise t s ∧ tokens r = tokens r'
  | .mk head marked sized applied, .mk head' marked' sized' applied', h, ends, ends' => by
    obtain ⟨name, behind⟩ := head.likewise head' h.skipConst
      (ends_afterName marked sized applied ends) (ends_afterName marked' sized' applied' ends')
    obtain ⟨rfl, beyond⟩ := marked.abreast marked' (Abreast.of_tokens behind).skipConst
    obtain ⟨rfl, next⟩ := sized.abreast sized' beyond
    obtain ⟨parameters, rest⟩ := applied.likewise applied' next
    refine ⟨.named ?_ (name.parts .qualifier) (name.parts .arg) parameters, rest⟩
    rw [String.toList_append, String.toList_append, unspaced_append, unspaced_append, name.baseName]
termination_by structural left => left

theorem ReadsName.likewise {u t r v s r'} : ReadsName u t r → ReadsName v s r' → Abreast u v →
    Ends afterName (trimStart (skipConst (trimStart r))) →
    Ends afterName (trimStart (skipConst (trimStart r'))) → Likewise t s ∧ tokens r = tokens r'
  | .builtin read, right, h, ends, ends' => by
    obtain ⟨spelling, -, rfl, base, rest⟩ := ReadsName.exists_builtin read right h ends ends'
    exact ⟨.ofBaseName base, rest⟩
  | .segments noBuiltin chain, right, h, ends, ends' => by
    cases right with
    | builtin read =>
      obtain ⟨_, read', -⟩ := ReadsName.exists_builtin read (.segments noBuiltin chain) h.symm ends' ends
      cases noBuiltin.symm.trans read'
    | segments _ chain' =>
      have plain {r : List Char} (ends : Ends afterName (trimStart (skipConst (trimStart r)))) :
          r.head? ≠ some ':' := by
        intro colon
        obtain ⟨r, rfl⟩ := List.head?_eq_some_iff.mp colon
        exact absurd (ends ':' rfl) (by decide)
      exact chain.likewise chain' h (plain ends) (plain ends')
termination_by structural left => left

theorem ReadsSegments.likewise {u t r v s r'} : ReadsSegments u t r → ReadsSegments v s r' →
    Abreast u v → r.head? ≠ some ':' → r'.head? ≠ some ':' → Likewise t s ∧ tokens r = tokens r'
  | .last first ends, right, h, plain, plain' => by
    cases right with
    | last first' _ =>
      obtain ⟨segment, behind⟩ := first.likewise first' h
      exact ⟨segment, by simpa using behind⟩
    | more first' joined _ _ =>
      obtain ⟨-, behind⟩ := first.likewise first' h
      have beside := Abreast.of_tokens behind
      rw [joined] at beside
      exact absurd beside.head?_eq plain
  | .more first joined _ others, right, h, plain, plain' => by
    cases right with
    | last first' _ =>
      obtain ⟨-, behind⟩ := first.likewise first' h
      have beside := Abreast.of_tokens behind
      rw [joined] at beside
      exact absurd beside.head?_eq.symm plain'
    | more first' joined' _ others' =>
      obtain ⟨segment, behind⟩ := first.likewise first' h
      have beside := Abreast.of_tokens behind
      rw [joined, joined'] at beside
      have colon := Abreast.mk rfl rfl (beside.behind (by decide))
      obtain ⟨name, rest⟩ :=
        others.likewise others' (.of_tokens (colon.behind (by decide))) plain plain'
      exact ⟨.named name.baseName (.cons segment (name.parts .qualifier)) (name.parts .arg) .none,
        rest⟩
termination_by structural left => left

theorem ReadsSegment.likewise {u t r v s r'} : ReadsSegment u t r → ReadsSegment v s r' →
    Abreast u v → Likewise t s ∧ tokens r = tokens r'
  | .plain _ plain, right, h => by
    have word : ∀ c, isIdent c = true → isIdent c = true := fun _ ident => ident
    have behind := h.tokens_dropWhile word
    cases right with
    | plain =>
      refine ⟨.named (by rw [h.takeWhile_eq word]) .nil .nil .none, ?_⟩
      simpa using behind
    | template _ opens _ =>
      rw [(Abreast.of_tokens behind).head?_eq, opens] at plain
      exact absurd rfl plain
  | .template _ opens list, right, h => by
    have word : ∀ c, isIdent c = true → isIdent c = true := fun _ ident => ident
    have beside := Abreast.of_tokens (h.tokens_dropWhile word)
    cases right with
    | plain _ plain =>
      rw [← beside.head?_eq, opens] at plain
      exact absurd rfl plain
    | template _ opens' list' =>
      rw [opens, opens'] at beside
      obtain ⟨args, rest⟩ := list.likewise list' (beside.behind (by decide)) rfl rfl
      have bracket := Abreast.mk rfl rfl rest
      exact ⟨.named (by rw [h.takeWhile_eq word]) .nil args .none, bracket.behind (by decide)⟩
termination_by structural left => left

theorem ReadsArguments.likewise {u ts r v ts' r'} : ReadsArguments u ts r →
    ReadsArguments v ts' r' → tokens u = tokens v → r.head? = some '>' → r'.head? = some '>' →
    List.Forall₂ Likewise ts ts' ∧ tokens r = tokens r'
  | .last first _, right, same, closed, closed' => by
    have ends := Ends.of_head closed (show '>' ∈ closers by decide)
    -- one list goes on exactly where the other does, because the tokens behind the argument agree
    cases right with
    | last first' _ =>
      obtain ⟨arg, behind⟩ :=
        first.likewise first' (.of_tokens same) ends (.of_head closed' (by decide))
      exact ⟨.cons arg .nil, by simpa using behind⟩
    | more first' joined _ _ =>
      obtain ⟨-, behind⟩ :=
        first.likewise first' (.of_tokens same) ends (.of_eq joined (by decide))
      rw [(Abreast.of_tokens behind).head?_eq, joined] at closed
      cases closed
  | .more first joined _ others, right, same, closed, closed' => by
    have ends := Ends.of_eq joined (show ',' ∈ closers by decide)
    cases right with
    | last first' _ =>
      obtain ⟨-, behind⟩ :=
        first.likewise first' (.of_tokens same) ends (.of_head closed' (by decide))
      rw [← (Abreast.of_tokens behind).head?_eq, joined] at closed'
      cases closed'
    | more first' joined' _ others' =>
      obtain ⟨arg, behind⟩ :=
        first.likewise first' (.of_tokens same) ends (.of_eq joined' (by decide))
      have beside := Abreast.of_tokens behind
      rw [joined, joined'] at beside
      obtain ⟨args, rest⟩ := others.likewise others' (beside.behind (by decide)) closed closed'
      exact ⟨.cons arg args, rest⟩
termination_by structural left => left

theorem ReadsArgument.likewise {u t r v s r'} : ReadsArgument u t r → ReadsArgument v s r' →
    Abreast u v → Ends closers (trimStart r) → Ends closers (trimStart r') →
    Likewise t s ∧ tokens r = tokens r'
  | .number digit, right, h, _, _ => by
    have digits : ∀ c : Char, c.isDigit = true → isIdent c = true := fun _ => isIdent_of_isDigit
    cases right with
    | number => exact ⟨.ofBaseName (by rw [h.takeWhile_eq digits]), h.tokens_dropWhile digits⟩
    | wildcard =>
      rw [h.head?_eq] at digit
      cases digit
    | type noDigit _ _ =>
      rw [h.head?_eq, noDigit] at digit
      cases digit
  | .wildcard, right, h, _, _ => by
    obtain ⟨v, rfl, same⟩ := h.of_cons (by decide)
    cases right with
    | number digit => cases digit
    | wildcard => exact ⟨.wildcard, same⟩
    | type _ noStar _ => exact absurd rfl noStar
  | .type noDigit noStar read, right, h, ends, ends' => by
    rw [h.head?_eq] at noDigit noStar
    cases right with
    | number digit => cases noDigit.symm.trans digit
    | wildcard => exact absurd rfl noStar
    | type _ _ read' => exact read.likewise read' h ends ends'
termination_by structural left => left

theorem ReadsParameterList.likewise {u ps r v ps' r'} : ReadsParameterList u ps r →
    ReadsParameterList v ps' r' → Abreast u v →
    Option.Rel (List.Forall₂ Likewise) ps ps' ∧ tokens r = tokens r'
  | .none plain, right, h => by
    rw [h.head?_eq] at plain
    cases right with
    | none => exact ⟨.none, h.same⟩
    | some => exact absurd rfl plain
  | .some list, right, h => by
    obtain ⟨v, rfl, same⟩ := h.of_cons (by decide)
    cases right with
    | none plain => exact absurd rfl plain
    | some list' =>
      obtain ⟨parameters, rest⟩ := list.likewise list' same
      exact ⟨.some parameters, by simpa using rest⟩
termination_by structural left => left

theorem ReadsParameters.likewise {u ts r v ts' r'} : ReadsParameters u ts r →
    ReadsParameters v ts' r' → tokens u = tokens v →
    List.Forall₂ Likewise ts ts' ∧ tokens r = tokens r'
  | .nil closed, right, same => by
    have beside := Abreast.of_tokens same
    rw [closed] at beside
    cases right with
    | nil closed' =>
      rw [closed'] at beside
      exact ⟨.nil, beside.behind (by decide)⟩
    | last more _ _ => exact absurd beside.head?_eq.symm more
    | more more _ _ _ => exact absurd beside.head?_eq.symm more
  | .last more first closed, right, same => by
    have beside := Abreast.of_tokens same
    have ends := Ends.of_eq closed (show ')' ∈ closers by decide)
    cases right with
    | nil closed' =>
      rw [beside.head?_eq, closed'] at more
      exact absurd rfl more
    | last _ first' closed' =>
      obtain ⟨parameter, behind⟩ :=
        first.likewise first' beside ends (.of_eq closed' (by decide))
      have beside := Abreast.of_tokens behind
      rw [closed, closed'] at beside
      exact ⟨.cons parameter .nil, beside.behind (by decide)⟩
    | more _ first' joined' _ =>
      obtain ⟨-, behind⟩ :=
        first.likewise first' beside ends (.of_eq joined' (by decide))
      have beside := Abreast.of_tokens behind
      rw [closed, joined'] at beside
      cases beside.head?_eq
  | .more more first joined others, right, same => by
    have beside := Abreast.of_tokens same
    have ends := Ends.of_eq joined (show ',' ∈ closers by decide)
    cases right with
    | nil closed' =>
      rw [beside.head?_eq, closed'] at more
      exact absurd rfl more
    | last _ first' closed' =>
      obtain ⟨-, behind⟩ :=
        first.likewise first' beside ends (.of_eq closed' (by decide))
      have beside := Abreast.of_tokens behind
      rw [joined, closed'] at beside
      cases beside.head?_eq
    | more _ first' joined' others' =>
      obtain ⟨parameter, behind⟩ :=
        first.likewise first' beside ends (.of_eq joined' (by decide))
      have beside := Abreast.of_tokens behind
      rw [joined, joined'] at beside
      obtain ⟨parameters, rest⟩ := others.likewise others' (beside.behind (by decide))
      exact ⟨.cons parameter parameters, rest⟩
termination_by structural left => left

end

/-! ## Matching -/

variable {a b : String} {p q x y : TypeTree}

/-- Type names of the same tokens are read as trees of the same shape. -/
theorem likewise_of_tokens (left : parse a = .ok p) (right : parse b = .ok q)
    (same : tokens a.toList = tokens b.toList) : Likewise p q := by
  obtain ⟨rest, read, blank⟩ := parse_eq_ok_iff.mp left
  obtain ⟨rest', read', blank'⟩ := parse_eq_ok_iff.mp right
  have ends {rest : List Char} (blank : trimStart rest = []) : Ends closers (trimStart rest) := by
    rw [blank]
    exact nofun
  exact (read.likewise read' (.of_tokens same) (ends blank) (ends blank')).1

theorem Faces.swap {kinds : Part → Prop} (h : Faces kinds p q x y) : Faces kinds q p y x := by
  induction h with
  | self p q => exact .self q p
  | inside kind left right _ ih => exact .inside kind right left ih

/-- What faces each other in trees of the same shape is of the same shape. -/
theorem Likewise.facing {kinds : Part → Prop} (h : Likewise p q) (faces : Faces kinds p q x y) :
    Likewise x y := by
  induction faces with
  | self => exact h
  | inside _ left right _ ih =>
    obtain ⟨within, rfl⟩ := List.getElem?_eq_some_iff.mp left
    obtain ⟨within', rfl⟩ := List.getElem?_eq_some_iff.mp right
    exact ih ((h.parts _).get within within')

/-- The base name has a blank in it. -/
def HasBlanks (t : TypeTree) : Prop := t.baseName.toList.any isBlank = true

/-- Names that face each other are the same if there is a blank in one of them. -/
def SpelledAlike (p q : TypeTree) : Prop :=
  ∀ x y, Faces IsCompared p q x y → HasBlanks x ∨ HasBlanks y → x.baseName = y.baseName

theorem SpelledAlike.symm (h : SpelledAlike p q) : SpelledAlike q p :=
  fun x y faces blanks => (h y x faces.swap blanks.symm).symm

theorem Likewise.baseName_eq (h : Likewise x y)
    (alike : HasBlanks x ∨ HasBlanks y → x.baseName = y.baseName) : x.baseName = y.baseName := by
  by_cases blanks : HasBlanks x ∨ HasBlanks y
  · exact alike blanks
  · have solid {t : TypeTree} (h : ¬ HasBlanks t) : unspaced t.baseName.toList = t.baseName.toList :=
      unspaced_eq_self fun c mem => by
        rw [HasBlanks, Bool.not_eq_true, List.any_eq_false] at h
        exact Bool.eq_false_iff.mpr (h c mem)
    rw [not_or] at blanks
    have same := h.baseName
    rw [solid blanks.1, solid blanks.2] at same
    exact String.toList_inj.mp same

/-- Trees of the same shape cover each other where names with blanks are the same. -/
theorem Likewise.covers_iff (h : Likewise p q) : covers p q = true ↔ SpelledAlike p q := by
  rw [TypeTree.covers_iff]
  constructor
  · intro covered x y faces _
    rcases covered x y faces with rfl | agrees
    · cases h.facing faces
      rfl
    · exact agrees.baseName
  · intro alike x y faces
    have facing := h.facing faces
    refine .inr ⟨facing.baseName_eq (alike x y faces), ?_, .inl ?_, .inl facing.extent_eq⟩
    · exact (facing.parts .qualifier).length_eq
    · exact (facing.parts .arg).length_eq

/-- **Two type names of the same tokens are trees of the same shape, and one covers
the other if and only if the names with blanks in them are spelled alike.** -/
theorem covers_iff_of_tokens (left : parse a = .ok p) (right : parse b = .ok q)
    (same : tokens a.toList = tokens b.toList) :
    Likewise p q ∧ (covers p q = true ↔ SpelledAlike p q) ∧
      (covers q p = true ↔ SpelledAlike p q) := by
  have likewise := likewise_of_tokens left right same
  have backward := (likewise_of_tokens right left same.symm).covers_iff
  exact ⟨likewise, likewise.covers_iff, backward.trans ⟨SpelledAlike.symm, SpelledAlike.symm⟩⟩

/-- Blanks between words that are no row of a built-in name. -/
theorem covers_iff_of_tokens_map :
    ∃ p q, parse "Map< int ,std :: Foo * > [ 3 ]" = .ok p ∧ parse "Map<int,std::Foo*>[3]" = .ok q ∧
      tokens "Map< int ,std :: Foo * > [ 3 ]".toList = tokens "Map<int,std::Foo*>[3]".toList ∧
      Likewise p q ∧ covers p q = true ∧ SpelledAlike p q := by
  obtain ⟨p, q, left, right, covered⟩ := exists_of_coversText?
    (show coversText? "Map< int ,std :: Foo * > [ 3 ]" "Map<int,std::Foo*>[3]" = some true by
      decide +kernel)
  have same : tokens "Map< int ,std :: Foo * > [ 3 ]".toList =
      tokens "Map<int,std::Foo*>[3]".toList := by decide +kernel
  obtain ⟨likewise, forward, -⟩ := covers_iff_of_tokens left right same
  exact ⟨p, q, left, right, same, likewise, covered, forward.mp covered⟩

/-- **The blanks inside a built-in name count**: written with one blank and with two, it
is read from the same tokens, and neither covers the other. -/
theorem covers_blanks_differ :
    ∃ p q, parse "unsigned int" = .ok p ∧ parse "unsigned  int" = .ok q ∧
      tokens "unsigned int".toList = tokens "unsigned  int".toList ∧
      covers p q = false ∧ covers q p = false := by
  obtain ⟨p, q, left, right, forward⟩ := exists_of_coversText?
    (show coversText? "unsigned int" "unsigned  int" = some false by decide +kernel)
  obtain ⟨q', p', right', left', backward⟩ := exists_of_coversText?
    (show coversText? "unsigned  int" "unsigned int" = some false by decide +kernel)
  obtain rfl : p = p' := Except.ok.inj (left.symm.trans left')
  obtain rfl : q = q' := Except.ok.inj (right.symm.trans right')
  exact ⟨p, q, left, right, by decide +kernel, forward, backward⟩

end WatchView.TypeTree
