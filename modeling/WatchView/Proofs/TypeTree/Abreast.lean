import WatchView.Proofs.TypeTree.Phrases
import WatchView.Proofs.TypeTree.Reparse
import WatchView.Proofs.TypeTree.Written
/-!
# Texts of the same tokens

The tokens of a text are its words and numbers and every other character that is no
blank. Two texts stand abreast if they are made of the same tokens and neither
starts with a blank. They start alike, with the same word or with the same other
character (`Abreast.inv`), and what is left behind that stands abreast again once
its blanks are skipped. So the same markers, the same extent and a built-in name of
the same words are read of both.

The choice between the vector extension and `unsigned char` is the only one that
looks at blanks. There what follows the name decides: nothing that may follow a name
starts like `__attribute__` (`ReadsName.behindVector?_eq_some`).
-/

namespace WatchView.TypeTree

open Text

variable {c : Char} {u v token cs rest : List Char} {p : Char → Bool}

/-! ## Texts side by side -/

/-- Two texts of the same tokens that start with no blank. -/
structure Abreast (u v : List Char) : Prop where
  left : u.head?.any isBlank = false
  right : v.head?.any isBlank = false
  same : tokens u = tokens v

namespace Abreast

/-- Texts of the same tokens stand abreast behind the blanks they start with. -/
theorem of_tokens (same : tokens u = tokens v) : Abreast (trimStart u) (trimStart v) :=
  ⟨head?_trimStart u, head?_trimStart v, by simpa using same⟩

theorem symm (h : Abreast u v) : Abreast v u := ⟨h.right, h.left, h.same.symm⟩

/-- **Texts that stand abreast start with the same token**, if they do not end. -/
theorem inv (h : Abreast u v) : u = [] ∧ v = [] ∨ ∃ token u' v', IsToken token u' ∧
    IsToken token v' ∧ u = token ++ u' ∧ v = token ++ v' ∧ tokens u' = tokens v' := by
  obtain ⟨left, right, same⟩ := h
  obtain rfl | ⟨token, u, first, rfl⟩ := exists_token left
  · obtain rfl | ⟨token', v, first', rfl⟩ := exists_token right
    · exact .inl ⟨rfl, rfl⟩
    · rw [first'.tokens_append] at same
      cases same
  · obtain rfl | ⟨token', v, first', rfl⟩ := exists_token right
    · rw [first.tokens_append] at same
      cases same
    · rw [first.tokens_append, first'.tokens_append, List.cons.injEq] at same
      obtain ⟨rfl, same⟩ := same
      exact .inr ⟨token, u, v, first, first', rfl, rfl, same⟩

theorem head?_eq (h : Abreast u v) : u.head? = v.head? := by
  obtain ⟨rfl, rfl⟩ | ⟨token, u, v, first, -, rfl, rfl, -⟩ := h.inv
  · rfl
  · obtain ⟨c, token, rfl⟩ := List.exists_cons_of_ne_nil first.ne_nil
    rfl

/-- A character that is no part of a word stands in front of both texts. -/
theorem of_cons (h : Abreast (c :: u) v) (other : isIdent c = false) :
    ∃ v', v = c :: v' ∧ tokens u = tokens v' := by
  have solid : isBlank c = false := h.left
  have mark : tokens (c :: u) = [c] :: tokens u := (IsToken.mark solid other).tokens_append
  obtain ⟨none, -⟩ | ⟨token, u', v', first, -, left, rfl, same⟩ := h.inv
  · cases none
  · rw [left, first.tokens_append] at mark
    obtain ⟨rfl, behind⟩ := List.cons.inj mark
    exact ⟨v', rfl, behind.symm.trans same⟩

theorem behind (h : Abreast (c :: u) (c :: v)) (other : isIdent c = false) :
    tokens u = tokens v := by
  obtain ⟨_, here, same⟩ := h.of_cons other
  cases here
  exact same

/-- The word both texts start with, which may be none. -/
theorem exists_word (h : Abreast u v) : ∃ word u' v', word.all isIdent = true ∧
    u'.head?.any isIdent = false ∧ v'.head?.any isIdent = false ∧ u = word ++ u' ∧
      v = word ++ v' ∧ tokens u' = tokens v' := by
  obtain ⟨rfl, rfl⟩ | ⟨token, u, v, first, first', rfl, rfl, same⟩ := h.inv
  · exact ⟨[], [], [], rfl, rfl, rfl, rfl, rfl, rfl⟩
  · cases first with
    | word nonempty all ends =>
      cases first' with
      | word _ _ ends' => exact ⟨_, u, v, all, ends, ends', rfl, rfl, same⟩
      | mark _ other =>
        rw [List.all_cons, other] at all
        cases all
    | @mark c _ solid other =>
      refine ⟨[], c :: u, c :: v, rfl, other, other, rfl, rfl, ?_⟩
      exact h.same

/-- A reader of characters of words takes the same from both texts. -/
theorem takeWhile_eq (h : Abreast u v) (imp : ∀ c, p c = true → isIdent c = true) :
    u.takeWhile p = v.takeWhile p := by
  obtain ⟨word, u, v, -, ends, ends', rfl, rfl, -⟩ := h.exists_word
  rw [takeWhile_append_of_head (head?_any_of_imp imp ends),
    takeWhile_append_of_head (head?_any_of_imp imp ends')]

theorem tokens_dropWhile (h : Abreast u v) (imp : ∀ c, p c = true → isIdent c = true) :
    tokens (u.dropWhile p) = tokens (v.dropWhile p) := by
  obtain ⟨word, u, v, all, ends, ends', rfl, rfl, same⟩ := h.exists_word
  rw [dropWhile_append_of_head (head?_any_of_imp imp ends),
    dropWhile_append_of_head (head?_any_of_imp imp ends')]
  by_cases none : word.dropWhile p = []
  · rw [none]
    exact same
  · have all : (word.dropWhile p).all isIdent = true := List.all_eq_true.mpr fun c mem =>
      List.all_eq_true.mp all c ((List.dropWhile_suffix p).mem mem)
    rw [(IsToken.word none all ends).tokens_append, (IsToken.word none all ends').tokens_append, same]

theorem head?_dropWhile (h : Abreast u v) (imp : ∀ c, p c = true → isIdent c = true)
    (ident : isIdent c = true) :
    (u.dropWhile p).head? = some c ↔ (v.dropWhile p).head? = some c := by
  obtain ⟨word, u, v, -, ends, ends', rfl, rfl, -⟩ := h.exists_word
  rw [dropWhile_append_of_head (head?_any_of_imp imp ends),
    dropWhile_append_of_head (head?_any_of_imp imp ends')]
  cases word.dropWhile p with
  | cons d word => exact Iff.rfl
  | nil =>
    have none {w : List Char} (ends : w.head?.any isIdent = false) : w.head? ≠ some c := by
      intro head
      rw [head] at ends
      exact Bool.eq_false_iff.mp ends ident
    exact iff_of_false (none ends) (none ends')

end Abreast

/-! ## Markers and extents -/

variable {r r' behind beyond next markers markers' stops : List Char}
  {extent extent' : Option Extent} {parameters : Option (List TypeTree)}

theorem skipConst_eq (cs : List Char) : skipConst cs =
    if cs.takeWhile isIdent = "const".toList then trimStart (cs.dropWhile isIdent) else cs := by
  split
  · rename_i const
    have read := skipConst_const (head?_dropWhile_any isIdent cs)
    rwa [← const, List.takeWhile_append_dropWhile] at read
  · exact skipConst_of_takeWhile ‹_›

theorem Abreast.skipConst (h : Abreast u v) :
    Abreast (TypeTree.skipConst u) (TypeTree.skipConst v) := by
  rw [skipConst_eq, skipConst_eq, h.takeWhile_eq fun _ ident => ident]
  split
  · exact .of_tokens (h.tokens_dropWhile fun _ ident => ident)
  · exact h

theorem not_isIdent_of_isMarker (marker : isMarker c = true) : isIdent c = false := by
  simp only [isMarker, Bool.or_eq_true, beq_iff_eq] at marker
  obtain rfl | rfl := marker <;> rfl

theorem ReadsMarkers.abreast (left : ReadsMarkers u markers r) (right : ReadsMarkers v markers' r')
    (h : Abreast u v) : markers = markers' ∧ Abreast r r' := by
  induction left generalizing v markers' with
  | nil plain =>
    cases right with
    | nil => exact ⟨rfl, h⟩
    | cons marker _ =>
      rw [h.head?_eq] at plain
      exact absurd marker (Bool.eq_false_iff.mp plain)
  | cons marker _ ih =>
    obtain ⟨v, rfl, same⟩ := h.of_cons (not_isIdent_of_isMarker marker)
    cases right with
    | nil plain => exact absurd marker (Bool.eq_false_iff.mp plain)
    | cons _ more =>
      obtain ⟨rfl, rest⟩ := ih more (Abreast.of_tokens same).skipConst
      exact ⟨rfl, rest⟩

theorem ReadsExtent.abreast (left : ReadsExtent u extent r) (right : ReadsExtent v extent' r')
    (h : Abreast u v) : extent = extent' ∧ Abreast r r' := by
  -- by cases of the extent on the left; tokens tell which one stands on the right
  cases left with
  | none plain =>
    rw [h.head?_eq] at plain
    cases right with
    | none => exact ⟨rfl, h⟩
    | unbounded => exact absurd rfl plain
    | elements => exact absurd rfl plain
  | unbounded =>
    obtain ⟨v, rfl, same⟩ := h.of_cons (by decide)
    have inside := Abreast.of_tokens same
    rw [trimStart_cons (by decide)] at inside
    obtain ⟨v', closed, same'⟩ := inside.of_cons (by decide)
    cases right with
    | none plain => exact absurd rfl plain
    | unbounded =>
      rw [trimStart_cons (by decide)] at closed
      cases closed
      exact ⟨rfl, .of_tokens same'⟩
    | elements number _ =>
      rw [closed] at number
      cases number
  | elements number closed =>
    obtain ⟨v, rfl, same⟩ := h.of_cons (by decide)
    have inside := Abreast.of_tokens same
    cases right with
    | none plain => exact absurd rfl plain
    | unbounded =>
      rw [trimStart_cons (by decide)] at inside
      obtain ⟨u, open', -⟩ := inside.symm.of_cons (by decide)
      rw [open'] at number
      cases number
    | elements number' closed' =>
      have digits : ∀ c : Char, c.isDigit = true → isIdent c = true := fun _ => isIdent_of_isDigit
      rw [inside.takeWhile_eq digits, number'] at number
      cases number
      have behind := Abreast.of_tokens (inside.tokens_dropWhile digits)
      rw [closed, closed'] at behind
      exact ⟨rfl, .of_tokens (behind.behind (by decide))⟩

/-! ## What follows a name -/

theorem Ends.of_eq (h : cs = c :: rest) (mem : c ∈ stops) : Ends stops cs := by
  rw [h]
  exact .cons mem rest

theorem Ends.of_head (h : cs.head? = some c) (mem : c ∈ stops) : Ends stops cs := by
  intro d head
  cases h.symm.trans head
  exact mem

/-- What starts with one of these characters does so behind its blanks. -/
theorem Ends.behindBlanks (mem : c ∈ stops) (solid : isBlank c = false) (r : List Char) :
    Ends stops (Text.trimStart (c :: r)) := by
  rw [TypeTree.trimStart_cons solid]
  exact .cons mem r

theorem ReadsParameterList.ends (h : ReadsParameterList cs parameters rest)
    (ends : Ends closers (trimStart rest)) : Ends afterSize (trimStart cs) := by
  cases h with
  | none => exact ends.mono (by decide)
  | some => exact .behindBlanks (by decide) (by decide) _

theorem ReadsExtent.ends (h : ReadsExtent cs extent rest) (ends : Ends afterSize (trimStart rest)) :
    Ends afterMarkers (trimStart cs) := by
  cases h with
  | none => exact ends.mono (by decide)
  | unbounded => exact .behindBlanks (by decide) (by decide) _
  | elements => exact .behindBlanks (by decide) (by decide) _

theorem ReadsMarkers.ends (h : ReadsMarkers cs markers rest)
    (ends : Ends afterMarkers (trimStart rest)) : Ends afterName (trimStart cs) := by
  cases h with
  | nil => exact ends.mono (by decide)
  | cons marker _ =>
    simp only [isMarker, Bool.or_eq_true, beq_iff_eq] at marker
    obtain rfl | rfl := marker <;> exact .behindBlanks (by decide) (by decide) _

/-- What follows a name inside a type name. -/
theorem ends_afterName (marked : ReadsMarkers (skipConst (trimStart behind)) markers beyond)
    (sized : ReadsExtent beyond extent next) (applied : ReadsParameterList next parameters rest)
    (ends : Ends closers (trimStart rest)) :
    Ends afterName (trimStart (skipConst (trimStart behind))) :=
  marked.ends (sized.ends (applied.ends ends))

/-! ## Built-in names -/

/-- What is behind a word in one text and in another: the same tokens, and a dollar sign
in both or in neither. -/
structure Level (r r' : List Char) : Prop where
  same : tokens r = tokens r'
  dollar : r.head? = some '$' ↔ r'.head? = some '$'

open Primitive in
/-- Leading words are followed by leading words, blanks or not. -/
theorem leadingWords_succ (n : Nat) (cs : List Char) : leadingWords (n + 1) cs =
    if (cs.takeWhile isWord).isEmpty then []
    else (String.ofList (cs.takeWhile isWord), cs.dropWhile isWord) ::
      leadingWords n (trimStart (cs.dropWhile isWord)) := by
  rw [leadingWords]
  split
  · rfl
  · congr 1
    split
    · rfl
    · rename_i noBlank
      rw [trimStart_of_head (Bool.not_eq_true _ ▸ noBlank),
        leadingWords_of_head (head?_dropWhile_any isWord cs)]

/-- The same words lead texts that stand abreast. -/
theorem Abreast.leadingWords (h : Abreast u v) (n : Nat) :
    List.Forall₂ (fun w w' => w.1 = w'.1 ∧ Level w.2 w'.2) (Primitive.leadingWords n u)
      (Primitive.leadingWords n v) := by
  have word : ∀ c : Char, isWord c = true → isIdent c = true := fun _ => isIdent_of_isWord
  induction n generalizing u v with
  | zero => exact .nil
  | succ n ih =>
    rw [leadingWords_succ, leadingWords_succ, h.takeWhile_eq word]
    split
    · exact .nil
    · exact .cons ⟨rfl, h.tokens_dropWhile word, h.head?_dropWhile word rfl⟩
        (ih (.of_tokens (h.tokens_dropWhile word)))

theorem behindSpelling?_level {words words' : List (String × List Char)}
    (spelling : List (List String))
    (h : List.Forall₂ (fun w w' => w.1 = w'.1 ∧ Level w.2 w'.2) words words') :
    Option.Rel Level (Primitive.behindSpelling? spelling words)
      (Primitive.behindSpelling? spelling words') := by
  induction spelling generalizing words words' with
  | nil => exact .none
  | cons choices more ih =>
    cases h with
    | nil => cases more <;> exact .none
    | @cons w w' _ _ first others =>
      obtain ⟨word, behind⟩ := w
      obtain ⟨word', behind'⟩ := w'
      obtain ⟨rfl, level⟩ := first
      cases more with
      | nil =>
        simp only [Primitive.behindSpelling?]
        split
        · exact .some level
        · exact .none
      | cons =>
        simp only [Primitive.behindSpelling?]
        split
        · exact ih others
        · exact .none

theorem Abreast.behindWords? (h : Abreast u v) :
    Option.Rel Level (Primitive.behindWords? u) (Primitive.behindWords? v) := by
  unfold Primitive.behindWords?
  induction Primitive.spellings with
  | nil => exact .none
  | cons spelling more ih =>
    have first := behindSpelling?_level spelling (h.leadingWords 4)
    rw [List.findSome?_cons, List.findSome?_cons]
    generalize Primitive.behindSpelling? spelling (Primitive.leadingWords 4 u) = left at first ⊢
    generalize Primitive.behindSpelling? spelling (Primitive.leadingWords 4 v) = right at first ⊢
    cases first with
    | some level => exact .some level
    | none => exact ih

/-- The vector extension leaves the same tokens in texts of the same tokens. -/
theorem tokens_of_behindVector? (left : Primitive.behindVector? u = some r)
    (right : Primitive.behindVector? v = some r') (same : tokens u = tokens v) :
    tokens r = tokens r' := by
  obtain ⟨_, _, digits, isBlank, isBlank', nonempty, all, rfl⟩ :=
    Primitive.exists_vectorText_of_behindVector? left
  obtain ⟨_, _, digits', isBlank₂, isBlank₂', nonempty', all', rfl⟩ :=
    Primitive.exists_vectorText_of_behindVector? right
  rw [tokens_vectorText isBlank isBlank' nonempty all,
    tokens_vectorText isBlank₂ isBlank₂' nonempty' all'] at same
  exact (List.append_inj same rfl).2

/-- The leading words of the vector extension spell `unsigned char`, and `__attribute__`
is left behind them. -/
theorem behindWords?_vectorText {blank blank' : Char} (isBlank : isBlank blank = true)
    (isBlank' : Text.isBlank blank' = true) (digits rest : List Char) :
    Primitive.behindWords? (Primitive.vectorText blank blank' digits ++ rest) =
      some (blank' :: ("__attribute__((ext_vector_type(".toList ++
        (digits ++ (")))".toList ++ rest)))) := by
  have char (r : List Char) : trimStart ("char".toList ++ r) = "char".toList ++ r :=
    trimStart_of_head rfl
  have attr (r : List Char) : trimStart ("__attribute__((ext_vector_type(".toList ++ r) =
      "__attribute__".toList ++ '(' :: ("(ext_vector_type(".toList ++ r) := trimStart_of_head rfl
  rw [Primitive.behindWords?, Primitive.vectorText_append,
    Primitive.leadingWords_cons_blank (by decide) (by decide) isBlank, char,
    Primitive.leadingWords_cons_blank (by decide) (by decide) isBlank', attr,
    Primitive.leadingWords_cons (by decide) (by decide) rfl]
  simp [Primitive.spellings, Primitive.sign, Primitive.behindSpelling?]

/-- A name that starts with the tokens of the vector extension is read as such, if what
follows may follow a name. -/
theorem ReadsName.behindVector?_eq_some {name : TypeTree} (left : Primitive.behindVector? u = some r)
    (right : ReadsName v name r') (h : Abreast u v)
    (ends : Ends afterName (trimStart (skipConst (trimStart r')))) :
    Primitive.behindVector? v = some r' ∧ r'.head? ≠ some '$' := by
  obtain ⟨blank, blank', digits, isBlank, isBlank', -, -, rfl⟩ :=
    Primitive.exists_vectorText_of_behindVector? left
  have words := h.behindWords?
  rw [behindWords?_vectorText isBlank isBlank'] at words
  cases vector : Primitive.behindVector? v with
  | none =>
    exfalso
    generalize found : Primitive.behindWords? v = answer at words
    cases words with
    | @some _ behind level =>
      have behind?_v : Primitive.behind? v = some behind := by
        rw [Primitive.behind?_eq, vector, Option.none_or, found]
      cases right with
      | builtin read =>
        -- `__attribute__` would follow the name
        obtain ⟨here, -, -⟩ := Primitive.read?_eq_some_iff.mp read
        cases here.symm.trans behind?_v
        have beside := (Abreast.of_tokens level.same).skipConst
        rw [trimStart, List.dropWhile_cons_of_pos isBlank'] at beside
        have underscore : (skipConst (trimStart r')).head? = some '_' := beside.head?_eq.symm
        rw [trimStart_of_head beside.right] at ends
        exact absurd (ends '_' underscore) (by decide)
      | segments noBuiltin _ =>
        have dollar := level.dollar.mpr (Primitive.read?_eq_none_iff.mp noBuiltin _ behind?_v)
        obtain rfl : blank' = '$' := Option.some.inj dollar
        cases isBlank'
  | some behind =>
    cases right with
    | builtin read =>
      obtain ⟨here, plain, -⟩ := Primitive.read?_eq_some_iff.mp read
      rw [Primitive.behind?_eq, vector, Option.some_or] at here
      exact ⟨here, plain⟩
    | segments _ chain =>
      exfalso
      obtain ⟨_, _, _, isBlank, -, -, -, rfl⟩ := Primitive.exists_vectorText_of_behindVector? vector
      obtain ⟨rest, rfl⟩ := chain.of_vectorText isBlank
      exact absurd (ends 'c' rfl) (by decide)

/-- What was read of texts of the same tokens that leave the same tokens is the same,
blanks aside. -/
theorem unspaced_readPart (same : tokens u = tokens v) (behind : tokens r = tokens r')
    (left : r <:+ u) (right : r' <:+ v) : unspaced (readPart u r) = unspaced (readPart v r') := by
  obtain ⟨front, rfl⟩ := left
  obtain ⟨front', rfl⟩ := right
  have same := congrArg List.flatten same
  have behind := congrArg List.flatten behind
  rw [flatten_tokens, flatten_tokens, unspaced_append, unspaced_append] at same
  rw [flatten_tokens, flatten_tokens] at behind
  rw [readPart_append, readPart_append]
  rw [behind] at same
  exact List.append_cancel_right same

/-- A built-in name is read where a built-in name of the same tokens is read. -/
theorem ReadsName.exists_builtin {spelling : String} {name : TypeTree}
    (left : Primitive.read? u = some (spelling, r)) (right : ReadsName v name r') (h : Abreast u v)
    (ends : Ends afterName (trimStart (skipConst (trimStart r))))
    (ends' : Ends afterName (trimStart (skipConst (trimStart r')))) :
    ∃ spelling', Primitive.read? v = some (spelling', r') ∧ name = ofBaseName spelling' ∧
      unspaced spelling.toList = unspaced spelling'.toList ∧ tokens r = tokens r' := by
  obtain ⟨found, plain, rfl⟩ := Primitive.read?_eq_some_iff.mp left
  -- a built-in name is found in the other text too, as a vector extension or by its words
  have level : ∃ behind, Primitive.behind? v = some behind ∧
      tokens r = tokens behind ∧ behind.head? ≠ some '$' := by
    rw [Primitive.behind?_eq, Option.or_eq_some_iff] at found
    rcases found with vector | ⟨noVector, words⟩
    · obtain ⟨vector', plain'⟩ := right.behindVector?_eq_some vector h ends'
      refine ⟨r', by rw [Primitive.behind?_eq, vector', Option.some_or], ?_, plain'⟩
      exact tokens_of_behindVector? vector vector' h.same
    · have noVector' : Primitive.behindVector? v = none := by
        rw [Option.eq_none_iff_forall_ne_some]
        intro behind vector'
        have vector := (ReadsName.builtin left).behindVector?_eq_some vector' h.symm ends
        cases noVector.symm.trans vector.1
      have level := h.behindWords?
      rw [words] at level
      generalize found' : Primitive.behindWords? v = answer at level
      cases level with
      | @some _ behind level =>
        refine ⟨behind, ?_, level.same, fun dollar => plain (level.dollar.mpr dollar)⟩
        rw [Primitive.behind?_eq, noVector', Option.none_or, found']
  obtain ⟨behind, found', same, plain'⟩ := level
  cases right with
  | builtin read =>
    obtain ⟨here, -, rfl⟩ := Primitive.read?_eq_some_iff.mp read
    cases here.symm.trans found'
    refine ⟨_, read, rfl, ?_, same⟩
    rw [String.toList_ofList, String.toList_ofList]
    exact unspaced_readPart h.same same (Primitive.isRest_of_read? left).suffix
      (Primitive.isRest_of_read? read).suffix
  | segments noBuiltin _ =>
    exact absurd (Primitive.read?_eq_none_iff.mp noBuiltin _ found') plain'

end WatchView.TypeTree
