import WatchView.Proofs.TypeTree.Reads
/-!
# A full name is read again

The full name of a tree is the part of a text it was read from. What stood
behind that part, in `z`, is missing when the full name is read on its own. It
changes nothing as long as it starts, over blanks, with a character no
identifier goes on with (`Delimits`): a reader that stops at the latest where the
blanks of `z` end takes the same characters and builds the same tree.

**Every type name is read again from its full name, and so is every template
argument that is a type and every parameter in it** (`parse_fullName`).
-/

namespace WatchView.TypeTree

open Text

/-! ## With and without what follows -/

/-- Nothing that starts here, be it behind blanks, goes on an identifier. -/
def Delimits (z : List Char) : Prop := (trimStart z).head?.any isIdent = false

variable {z u u' v : List Char} {c : Char}

theorem Delimits.head? (h : Delimits z) : z.head?.any isIdent = false := by
  cases z with
  | nil => rfl
  | cons c z =>
    by_cases blank : isBlank c
    · exact not_isIdent_of_isBlank blank
    · have same : trimStart (c :: z) = c :: z := List.dropWhile_cons_of_neg blank
      rw [Delimits, same] at h
      exact h

theorem delimits_trimStart_iff : Delimits (trimStart z) ↔ Delimits z := by
  rw [Delimits, Delimits, trimStart_trimStart]

theorem delimits_of_trimStart_eq (h : trimStart z = c :: u) (plain : isIdent c = false) :
    Delimits z := by
  rw [Delimits, h]
  exact plain

theorem Delimits.noDigit (h : Delimits z) : z.head?.any Char.isDigit = false :=
  head?_any_of_imp (fun _ => isIdent_of_isDigit) h.head?

/-- `v` is what is left of a text, and `u` is what is left of it with `z` behind
it. Past the text, `u` is at the end of the blanks of `z`. -/
inductive FollowedBy (z : List Char) : List Char → List Char → Prop
  | inside (v : List Char) : FollowedBy z v (v ++ z)
  | past : FollowedBy z [] (trimStart z)

namespace FollowedBy

/-- In front of the end of the blanks of `z`, all of `z` is still to come. -/
theorem eq_append (h : FollowedBy z v u) (lt : (trimStart z).length < u.length) : u = v ++ z := by
  cases h with
  | inside => rfl
  | past => exact absurd lt (Nat.lt_irrefl _)

/-- Where no more than `z` is to come, the text is used up. -/
theorem eq_nil (h : FollowedBy z v u) (le : u.length ≤ z.length) : v = [] := by
  cases h with
  | inside =>
    rw [List.length_append] at le
    exact List.eq_nil_of_length_eq_zero (by omega)
  | past => rfl

theorem trimStart (h : FollowedBy z v u) : FollowedBy z (trimStart v) (trimStart u) := by
  cases h with
  | inside =>
    rw [trimStart_append]
    split
    · rename_i blank
      rw [blank]
      exact .past
    · exact .inside _
  | past =>
    rw [trimStart_trimStart]
    exact .past

/-- A head without a property is followed by nothing or by itself. -/
theorem head?_any {p : Char → Bool} (h : FollowedBy z v u) (plain : u.head?.any p = false) :
    v.head?.any p = false := by
  cases h with
  | inside =>
    cases v with
    | nil => rfl
    | cons c v => exact plain
  | past => rfl

theorem head?_ne (h : FollowedBy z v u) (plain : u.head? ≠ some c) : v.head? ≠ some c := by
  cases h with
  | inside =>
    cases v with
    | nil => exact nofun
    | cons c v => exact plain
  | past => exact nofun

/-- A head that goes on an identifier is no part of `z`. -/
theorem head?_any_eq_true {p : Char → Bool} (imp : ∀ c, p c = true → isIdent c = true)
    (h : FollowedBy z v u) (delim : Delimits z) (has : u.head?.any p = true) :
    v.head?.any p = true := by
  cases h with
  | inside =>
    cases v with
    | nil =>
      have lacks := head?_any_of_imp imp delim.head?
      exact absurd has (Bool.eq_false_iff.mp lacks)
    | cons c v => exact has
  | past => exact absurd has (Bool.eq_false_iff.mp (head?_any_of_imp imp delim))

/-- A separator with nothing behind it has nothing behind it without `z`. -/
theorem ends (head : List Char) (h : FollowedBy z v u) (nonempty : head ≠ [])
    (ends : ∀ next, u = head ++ next → next = []) : ∀ next, v = head ++ next → next = [] := by
  intro next same
  cases h with
  | inside =>
    rw [same, List.append_assoc] at ends
    exact (List.append_eq_nil_iff.mp (ends _ rfl)).1
  | past => exact absurd (List.append_eq_nil_iff.mp same.symm).1 nonempty

/-- A character that is no blank is in front of `z` if what follows it reaches
back to the blanks of `z`. -/
theorem cons (h : FollowedBy z v (c :: u)) (plain : isBlank c = false)
    (le : (Text.trimStart z).length ≤ u.length) : ∃ v', v = c :: v' ∧ FollowedBy z v' u := by
  have same : v ++ z = [c] ++ u := (h.eq_append (by rw [List.length_cons]; omega)).symm
  obtain ⟨v', rfl, rfl⟩ := exists_append_of_trimStart_le same (by simpa using plain) le
  exact ⟨v', rfl, .inside v'⟩

theorem dropWhile {p : Char → Bool} (h : FollowedBy z v u) (head : z.head?.any p = false)
    (head' : (Text.trimStart z).head?.any p = false) :
    u.takeWhile p = v.takeWhile p ∧ FollowedBy z (v.dropWhile p) (u.dropWhile p) := by
  cases h with
  | inside =>
    rw [takeWhile_append_of_head head, dropWhile_append_of_head head]
    exact ⟨rfl, .inside _⟩
  | past =>
    obtain ⟨taken, dropped⟩ := takeWhile_append_dropWhile_append (v := []) rfl head'
    rw [List.nil_append] at taken dropped
    rw [taken, dropped]
    exact ⟨rfl, .past⟩

theorem skipConst (h : FollowedBy z v u) (delim : Delimits z)
    (le : (Text.trimStart z).length ≤ (skipConst u).length) :
    FollowedBy z (skipConst v) (skipConst u) := by
  by_cases kept : ∀ u', u = "const".toList ++ u' → u'.head?.any isIdent = true
  · -- no word `const` stands here, and `z` cannot cut one out of a longer word
    rw [skipConst_eq_self kept, skipConst_eq_self]
    · exact h
    · rintro rest rfl
      cases h with
      | inside =>
        have ident := kept (rest ++ z) (List.append_assoc _ _ _)
        cases rest with
        | nil => exact absurd ident (Bool.eq_false_iff.mp delim.head?)
        | cons c rest => exact ident
  · simp only [Classical.not_forall, Bool.not_eq_true] at kept
    obtain ⟨rest, rfl, plain⟩ := kept
    rw [skipConst_const plain] at le ⊢
    have le' := Nat.le_trans le (length_trimStart_le rest)
    have same := h.eq_append (by
      rw [List.length_append]
      exact Nat.lt_of_le_of_lt le' (Nat.lt_add_of_pos_left (by decide)))
    obtain ⟨behind, rfl, rfl⟩ := exists_append_of_trimStart_le same.symm (by decide) le'
    have followed := FollowedBy.inside (z := z) behind
    rw [skipConst_const (followed.head?_any plain)]
    exact followed.trimStart

end FollowedBy

/-! ## The parts of a type name -/

theorem ReadsMarkers.alone {markers : List Char} (h : ReadsMarkers u markers u') (delim : Delimits z)
    (le : (trimStart z).length ≤ u'.length) (followed : FollowedBy z v u) :
    ∃ v', ReadsMarkers v markers v' ∧ FollowedBy z v' u' := by
  induction h generalizing v with
  | nil plain => exact ⟨v, .nil (followed.head?_any plain), followed⟩
  | @cons c cs markers rest marker more ih =>
    have le' := Nat.le_trans le more.suffix.length_le
    have plain : isBlank c = false := by
      rcases Bool.or_eq_true_iff.mp marker with star | amp
      · rw [beq_iff_eq.mp star]
        rfl
      · rw [beq_iff_eq.mp amp]
        rfl
    obtain ⟨v, rfl, behind⟩ := followed.cons plain
      (Nat.le_trans le' (length_skipConst_trimStart_le cs))
    obtain ⟨v', reads, beyond⟩ := ih le (behind.trimStart.skipConst delim le')
    exact ⟨v', .cons marker reads, beyond⟩

theorem ReadsExtent.alone {extent : Option Extent} (h : ReadsExtent u extent u') (delim : Delimits z)
    (le : (trimStart z).length ≤ u'.length) (followed : FollowedBy z v u) :
    ∃ v', ReadsExtent v extent v' ∧ FollowedBy z v' u' := by
  cases h with
  | none plain => exact ⟨v, .none (followed.head?_ne plain), followed⟩
  | @unbounded cs =>
    have le := Nat.le_trans le (length_trimStart_le cs)
    obtain ⟨v, rfl, bracket⟩ := followed.cons rfl (Nat.le_succ_of_le le)
    obtain ⟨v, rfl, behind⟩ := bracket.cons rfl le
    exact ⟨trimStart v, .unbounded, behind.trimStart⟩
  | @elements cs count rest number closed =>
    have le := Nat.le_trans le (length_trimStart_le rest)
    have inner : _ <:+ cs := (trimStart_suffix _).trans
      ((List.dropWhile_suffix Char.isDigit).trans (trimStart_suffix cs))
    rw [closed] at inner
    obtain ⟨v, rfl, bracket⟩ := followed.cons rfl
      (Nat.le_trans (Nat.le_succ_of_le le) inner.length_le)
    obtain ⟨digits, behind⟩ :=
      bracket.trimStart.dropWhile delim.noDigit (delimits_trimStart_iff.mpr delim).noDigit
    have behind := behind.trimStart
    rw [closed] at behind
    obtain ⟨v', closed', beyond⟩ := behind.cons rfl le
    exact ⟨trimStart v', .elements (digits ▸ number) closed', beyond.trimStart⟩

/-- The text that was read does not change with what follows, blanks aside. -/
theorem FollowedBy.readText_eq {v' : List Char} (h : FollowedBy z v' u) (suffix : v' <:+ v) :
    readText (v ++ z) u = readText v v' := by
  obtain ⟨head, rfl⟩ := suffix
  unfold readText
  cases h with
  | inside => rw [readPart_append_append]
  | past =>
    have blank : (z.takeWhile isBlank).all isBlank = true := List.all_takeWhile
    have parts : head ++ [] ++ z = (head ++ z.takeWhile isBlank) ++ Text.trimStart z := by
      rw [List.append_nil, List.append_assoc]
      exact congrArg _ List.takeWhile_append_dropWhile.symm
    rw [readPart_eq_of_append parts, readPart_append, trimEnd_append_of_blank blank]

/-! ## Type names -/

/-- Of the vector extension, an identifier is `unsigned` alone. -/
theorem ReadsSegments.of_vectorText {blank blank' : Char} {digits rest : List Char} {t : TypeTree}
    (isBlank : isBlank blank = true)
    (h : ReadsSegments (Primitive.vectorText blank blank' digits ++ rest) t u) :
    ∃ u', u = 'c' :: 'h' :: u' := by
  obtain ⟨-, dropped⟩ := takeWhile_append_dropWhile_append (v := "unsigned".toList) (p := isIdent)
    (z := blank :: ("char".toList ++ blank' :: ("__attribute__((ext_vector_type(".toList ++
      (digits ++ (")))".toList ++ rest))))) (by decide) (not_isIdent_of_isBlank isBlank)
  have behind : ∃ u', trimStart ((Primitive.vectorText blank blank' digits ++ rest).dropWhile
      isIdent) = 'c' :: 'h' :: u' := by
    rw [Primitive.vectorText_append, dropped, trimStart, List.dropWhile_cons_of_pos isBlank]
    exact ⟨_, rfl⟩
  obtain ⟨u', behind⟩ := behind
  have segment : ∀ {segment u}, ReadsSegment (Primitive.vectorText blank blank' digits ++ rest)
      segment u → u = 'c' :: 'h' :: u' := by
    intro segment u read
    cases read with
    | plain => exact behind
    | template _ opens _ =>
      rw [behind] at opens
      cases opens
  cases h with
  | last first _ =>
    rw [segment first]
    exact ⟨u', rfl⟩
  | more first joined _ _ =>
    rw [segment first] at joined
    cases joined

/-- A type name that is followed by no part of an identifier does not start with
an identifier in place of the vector extension. -/
theorem ReadsType.behindVector?_eq_none {name : TypeTree}
    {cs behind markers beyond next rest : List Char} {extent : Option Extent}
    {parameters : Option (List TypeTree)} (head : ReadsName cs name behind)
    (marked : ReadsMarkers (skipConst (trimStart behind)) markers beyond)
    (sized : ReadsExtent beyond extent next) (applied : ReadsParameterList next parameters rest)
    (ends : Delimits rest) (noBuiltin : Primitive.read? cs = none) :
    Primitive.behindVector? cs = none := by
  cases vector : Primitive.behindVector? cs with
  | none => rfl
  | some r =>
    exfalso
    obtain ⟨_, _, _, isBlank, -, -, -, rfl⟩ := Primitive.exists_vectorText_of_behindVector? vector
    cases head with
    | builtin read => cases noBuiltin.symm.trans read
    | segments _ chain =>
      obtain ⟨u', rfl⟩ := chain.of_vectorText isBlank
      have start : skipConst (trimStart ('c' :: 'h' :: u')) = 'c' :: 'h' :: u' := rfl
      rw [start] at marked
      cases marked with
      | nil =>
        cases sized
        cases applied
        cases ends
      | cons marker => cases marker

-- The induction is on the derivation. No part reads into `z` past its blanks, as the lengths
-- of what the parts leave show, so that the case `past` is left to the ends of lists.
mutual

theorem ReadsType.alone {z u t u' v} (delim : Delimits z) :
    ReadsType u t u' → Delimits u' → (trimStart z).length ≤ u'.length → FollowedBy z v u →
      ∃ v', ReadsType v t v' ∧ FollowedBy z v' u'
  | @ReadsType.mk _ _ behind _ _ _ _ _ _ head marked sized applied, ends, le, followed => by
    have toName := head.isRest.shorter
    have toMarkers := length_skipConst_trimStart_le behind
    have toExtent := marked.suffix.length_le
    have toParameters := sized.suffix.length_le
    have toRest := applied.suffix.length_le
    have same := followed.eq_append (by have := (skipConst_suffix u).length_le; omega)
    have noVector := ReadsType.behindVector?_eq_none head marked sized applied ends
    have followed := followed.skipConst delim (by omega)
    obtain ⟨_, head, followed⟩ := head.alone delim noVector (by omega) followed
    have followed := followed.trimStart.skipConst delim (by omega)
    obtain ⟨_, marked, followed⟩ := marked.alone delim (by omega) followed
    obtain ⟨_, sized, followed⟩ := sized.alone delim (by omega) followed
    obtain ⟨v', applied, followed⟩ := applied.alone delim le followed
    have read := ReadsType.mk head marked sized applied
    rw [same, followed.readText_eq read.isRest.suffix]
    exact ⟨v', read, followed⟩

theorem ReadsName.alone {z u t u' v} (delim : Delimits z) :
    ReadsName u t u' → (Primitive.read? u = none → Primitive.behindVector? u = none) →
      (trimStart z).length ≤ u'.length → FollowedBy z v u →
      ∃ v', ReadsName v t v' ∧ FollowedBy z v' u'
  | .builtin read, _, le, followed => by
    have same := followed.eq_append (Nat.lt_of_le_of_lt le (Primitive.isRest_of_read? read).shorter)
    rw [same] at read
    obtain ⟨v', read', rfl⟩ := Primitive.read?_of_append delim.head? delim read le
    exact ⟨v', .builtin read', .inside v'⟩
  | .segments noBuiltin chain, noVector, le, followed => by
    have same := followed.eq_append (Nat.lt_of_le_of_lt le chain.isRest.shorter)
    have noVector := noVector noBuiltin
    obtain ⟨v', chain', behind⟩ := chain.alone delim le followed
    rw [same] at noBuiltin noVector
    have noBuiltin := Primitive.read?_eq_none_of_append delim.head? delim noBuiltin noVector
    exact ⟨v', .segments noBuiltin chain', behind⟩

theorem ReadsSegments.alone {z u t u' v} (delim : Delimits z) :
    ReadsSegments u t u' → (trimStart z).length ≤ u'.length → FollowedBy z v u →
      ∃ v', ReadsSegments v t v' ∧ FollowedBy z v' u'
  | .last first ends, le, followed => by
    obtain ⟨v', first, behind⟩ := first.alone delim (Nat.le_trans le (length_trimStart_le _)) followed
    have ends := behind.trimStart.ends [':', ':'] (by decide) ends
    exact ⟨trimStart v', .last first ends, behind.trimStart⟩
  | @ReadsSegments.more _ _ behind next _ _ first joined nonempty others, le, followed => by
    have toOthers := Nat.le_trans others.isRest.suffix.length_le (length_trimStart_le next)
    have toFirst := length_trimStart_le behind
    rw [joined, List.length_cons, List.length_cons] at toFirst
    obtain ⟨_, first, followed⟩ := first.alone delim (by omega) followed
    have followed := followed.trimStart
    rw [joined] at followed
    obtain ⟨_, colon, followed⟩ := followed.cons rfl (by rw [List.length_cons]; omega)
    obtain ⟨v, rfl, behind⟩ := followed.cons rfl (by omega)
    obtain ⟨v', others, followed⟩ := others.alone delim le behind.trimStart
    refine ⟨v', .more first colon ?_ others, followed⟩
    rintro rfl
    exact absurd others.isRest.shorter (Nat.not_lt_zero _)

theorem ReadsSegment.alone {z u t u' v} (delim : Delimits z) :
    ReadsSegment u t u' → (trimStart z).length ≤ u'.length → FollowedBy z v u →
      ∃ v', ReadsSegment v t v' ∧ FollowedBy z v' u'
  | .plain starts plain, le, followed => by
    have same := followed.eq_append (Nat.lt_of_le_of_lt le (isRest_identifier starts).shorter)
    have starts' := followed.head?_any_eq_true (fun _ => isIdent_of_isIdentStart) delim starts
    obtain ⟨identifier, behind⟩ := followed.dropWhile delim.head? delim
    have behind := behind.trimStart
    have read := ReadsSegment.plain starts' (behind.head?_ne plain)
    rw [identifier]
    have text := behind.readText_eq read.isRest.suffix
    rw [← same] at text
    rw [text]
    exact ⟨_, read, behind⟩
  | .template starts opens list, le, followed => by
    have toBracket := (isRest_identifier starts).shorter
    have toRest := list.isRest.shorter
    rw [opens, List.length_cons] at toBracket
    rw [List.length_cons] at toRest
    have same := followed.eq_append (by omega)
    have starts' := followed.head?_any_eq_true (fun _ => isIdent_of_isIdentStart) delim starts
    obtain ⟨identifier, behind⟩ := followed.dropWhile delim.head? delim
    have behind := behind.trimStart
    rw [opens] at behind
    obtain ⟨_, opens', inner⟩ := behind.cons rfl (by omega)
    obtain ⟨_, list, behind⟩ := list.alone delim rfl (by rw [List.length_cons]; omega) inner
    obtain ⟨v', rfl, beyond⟩ := behind.cons rfl le
    have read := ReadsSegment.template starts' opens' list
    have text := beyond.readText_eq read.isRest.suffix
    rw [← same] at text
    rw [identifier, text]
    exact ⟨v', read, beyond⟩

theorem ReadsArguments.alone {z u ts u' v} (delim : Delimits z) :
    ReadsArguments u ts u' → Delimits u' → (trimStart z).length ≤ u'.length → FollowedBy z v u →
      ∃ v', ReadsArguments v ts v' ∧ FollowedBy z v' u'
  | .last first separated, ends, le, followed => by
    have le := Nat.le_trans le (length_trimStart_le _)
    obtain ⟨v', first, behind⟩ :=
      first.alone delim (delimits_trimStart_iff.mp ends) le followed.trimStart
    have separated := behind.trimStart.ends [','] (by decide) separated
    exact ⟨trimStart v', .last first separated, behind.trimStart⟩
  | @ReadsArguments.more _ _ behind next _ _ first joined nonempty others, ends, le, followed => by
    have toOthers := others.isRest.suffix.length_le
    have toFirst := length_trimStart_le behind
    rw [joined, List.length_cons] at toFirst
    obtain ⟨_, first, followed⟩ := first.alone delim (delimits_of_trimStart_eq joined rfl) (by omega)
      followed.trimStart
    have followed := followed.trimStart
    rw [joined] at followed
    obtain ⟨v, comma, followed⟩ := followed.cons rfl (by omega)
    obtain ⟨v', others, followed⟩ := others.alone delim ends le followed
    refine ⟨v', .more first comma ?_ others, followed⟩
    rintro rfl
    exact absurd others.isRest.shorter (Nat.not_lt_zero _)

theorem ReadsArgument.alone {z u t u' v} (delim : Delimits z) :
    ReadsArgument u t u' → Delimits u' → (trimStart z).length ≤ u'.length → FollowedBy z v u →
      ∃ v', ReadsArgument v t v' ∧ FollowedBy z v' u'
  | .number digit, _, le, followed => by
    obtain ⟨digits, behind⟩ :=
      followed.dropWhile delim.noDigit (delimits_trimStart_iff.mpr delim).noDigit
    rw [digits]
    exact ⟨_, .number (followed.head?_any_eq_true (fun _ => isIdent_of_isDigit) delim digit), behind⟩
  | .wildcard, _, le, followed => by
    obtain ⟨v, rfl, behind⟩ := followed.cons rfl le
    exact ⟨v, .wildcard, behind⟩
  | .type noDigit noStar read, ends, le, followed => by
    obtain ⟨v', read, behind⟩ := read.alone delim ends le followed
    exact ⟨v', .type (followed.head?_any noDigit) (followed.head?_ne noStar) read, behind⟩

theorem ReadsParameterList.alone {z u parameters u' v} (delim : Delimits z) :
    ReadsParameterList u parameters u' → (trimStart z).length ≤ u'.length → FollowedBy z v u →
      ∃ v', ReadsParameterList v parameters v' ∧ FollowedBy z v' u'
  | .none plain, _, followed => ⟨v, .none (followed.head?_ne plain), followed⟩
  | .some list, le, followed => by
    have le := Nat.le_trans le (length_trimStart_le _)
    obtain ⟨v, rfl, bracket⟩ := followed.cons rfl (Nat.le_trans le list.isRest.suffix.length_le)
    obtain ⟨v', list, behind⟩ := list.alone delim le bracket
    exact ⟨trimStart v', .some list, behind.trimStart⟩

theorem ReadsParameters.alone {z u ts u' v} (delim : Delimits z) :
    ReadsParameters u ts u' → (trimStart z).length ≤ u'.length → FollowedBy z v u →
      ∃ v', ReadsParameters v ts v' ∧ FollowedBy z v' u'
  | .nil closed, le, followed => by
    have start := followed.trimStart
    rw [closed] at start
    obtain ⟨v', closed', behind⟩ := start.cons rfl le
    exact ⟨v', .nil closed', behind⟩
  | @ReadsParameters.last _ _ behind _ more first closed, le, followed => by
    have toFirst := length_trimStart_le behind
    rw [closed, List.length_cons] at toFirst
    have start := followed.trimStart
    obtain ⟨_, first, followed⟩ := first.alone delim (delimits_of_trimStart_eq closed rfl) (by omega)
      start
    have followed := followed.trimStart
    rw [closed] at followed
    obtain ⟨v', closed', followed⟩ := followed.cons rfl le
    exact ⟨v', .last (start.head?_ne more) first closed', followed⟩
  | @ReadsParameters.more _ _ behind next _ _ more first joined others, le, followed => by
    have toOthers := others.isRest.suffix.length_le
    have toFirst := length_trimStart_le behind
    rw [joined, List.length_cons] at toFirst
    have start := followed.trimStart
    obtain ⟨_, first, followed⟩ := first.alone delim (delimits_of_trimStart_eq joined rfl) (by omega)
      start
    have followed := followed.trimStart
    rw [joined] at followed
    obtain ⟨v, comma, followed⟩ := followed.cons rfl (by omega)
    obtain ⟨v', others, followed⟩ := others.alone delim le followed
    exact ⟨v', .more (start.head?_ne more) first comma others, followed⟩

end

/-- **A type name that starts at no blank and is delimited by what follows it is
read again from its full name.** -/
theorem ReadsType.reads_again {t : TypeTree} (h : ReadsType u t u')
    (trimmed : u.head?.any isBlank = false) (ends : Delimits u') : parse t.fullName = .ok t := by
  obtain ⟨read, rfl⟩ := h.isRest.suffix
  obtain ⟨b, blank, same⟩ := exists_trimEnd_append read
  have full : t.fullName = String.ofList (trimEnd read) := by
    cases h
    rw [fullName, readText, readPart_append]
  have split : read ++ u' = trimEnd read ++ (b ++ u') := by
    rw [← List.append_assoc, ← same]
  have gap : trimStart (b ++ u') = trimStart u' := trimStart_append_of_blank blank u'
  have followed : FollowedBy (b ++ u') (trimEnd read) (read ++ u') := split ▸ .inside _
  obtain ⟨v', alone, behind⟩ := h.alone (show Delimits (b ++ u') by rw [Delimits, gap]; exact ends)
    ends (by rw [gap]; exact length_trimStart_le u') followed
  have start : trimStart (trimEnd read) = trimEnd read :=
    trimStart_of_head (followed.head?_any trimmed)
  rw [full, parse_eq_ok_iff]
  refine ⟨v', by rwa [String.toList_ofList, start], ?_⟩
  rw [behind.eq_nil (List.suffix_append b u').length_le]
  rfl

/-! ## Every part -/

/-- A tree made of a number. -/
def IsNumber (t : TypeTree) : Prop :=
  ∃ digits : List Char, digits ≠ [] ∧ digits.all Char.isDigit = true ∧
    t = ofBaseName (String.ofList digits)

/-- `r` is `t` or stands in it as a qualifier, an argument or a parameter, at any
depth. -/
inductive Occurs (r : TypeTree) : TypeTree → Prop
  | self : Occurs r r
  | qualifier {q t} (mem : q ∈ t.qualifiers) (inner : Occurs r q) : Occurs r t
  | arg {a t} (mem : a ∈ t.args) (inner : Occurs r a) : Occurs r t
  | parameter {p t ps} (list : t.parameters = some ps) (mem : p ∈ ps) (inner : Occurs r p) :
      Occurs r t

/-- The arguments of a tree that are no numbers and no wildcards, and its
parameters, are read again from their full names. -/
structure PartsReparse (t : TypeTree) : Prop where
  args : ∀ a ∈ t.args, a = wildcard ∨ IsNumber a ∨ parse a.fullName = .ok a
  parameters : ∀ ps, t.parameters = some ps → ∀ p ∈ ps, parse p.fullName = .ok p

/-- The parts of everything that stands in a tree are read again. -/
def Reparses (t : TypeTree) : Prop := ∀ r, Occurs r t → PartsReparse r

namespace Reparses

variable {t : TypeTree}

theorem of_parts (here : PartsReparse t) (qualifiers : ∀ q ∈ t.qualifiers, Reparses q)
    (args : ∀ a ∈ t.args, Reparses a)
    (parameters : ∀ ps, t.parameters = some ps → ∀ p ∈ ps, Reparses p) : Reparses t := by
  intro r occurs
  cases occurs with
  | self => exact here
  | qualifier mem inner => exact qualifiers _ mem r inner
  | arg mem inner => exact args _ mem r inner
  | parameter list mem inner => exact parameters _ list _ mem r inner

theorem here (h : Reparses t) : PartsReparse t := h t .self

theorem of_mem_qualifiers (h : Reparses t) {q : TypeTree} (mem : q ∈ t.qualifiers) : Reparses q :=
  fun r inner => h r (.qualifier mem inner)

theorem of_mem_args (h : Reparses t) {a : TypeTree} (mem : a ∈ t.args) : Reparses a :=
  fun r inner => h r (.arg mem inner)

/-- A tree without parts has none to be read again. -/
theorem of_no_parts (qualifiers : t.qualifiers = []) (args : t.args = [])
    (parameters : t.parameters = none) : Reparses t := by
  refine of_parts ⟨?_, ?_⟩ ?_ ?_ ?_ <;> simp [qualifiers, args, parameters]

end Reparses

mutual

theorem ReadsType.reparses {u t u'} : ReadsType u t u' → Reparses t
  | .mk head _ _ applied =>
    have name := head.reparses
    have parameters := applied.reparses
    .of_parts ⟨name.here.args, fun ps list p mem => (parameters ps list p mem).1⟩
      (fun _ => name.of_mem_qualifiers) (fun _ => name.of_mem_args)
      fun ps list p mem => (parameters ps list p mem).2

theorem ReadsName.reparses {u t u'} : ReadsName u t u' → Reparses t
  | .builtin _ => .of_no_parts rfl rfl rfl
  | .segments _ chain => chain.reparses

theorem ReadsSegments.reparses {u t u'} : ReadsSegments u t u' → Reparses t
  | .last first _ => first.reparses
  | .more first _ _ others =>
    have segment := first.reparses
    have name := others.reparses
    .of_parts ⟨name.here.args, nofun⟩
      (List.forall_mem_cons.mpr ⟨segment, fun _ => name.of_mem_qualifiers⟩)
      (fun _ => name.of_mem_args) nofun

theorem ReadsSegment.reparses {u t u'} : ReadsSegment u t u' → Reparses t
  | .plain _ _ => .of_no_parts rfl rfl rfl
  | .template _ _ list =>
    have args := list.reparses rfl
    .of_parts ⟨fun a mem => (args a mem).1, nofun⟩ nofun (fun a mem => (args a mem).2) nofun

theorem ReadsArguments.reparses {u ts u'} : ReadsArguments u ts u' → Delimits u' →
    ∀ a ∈ ts, (a = wildcard ∨ IsNumber a ∨ parse a.fullName = .ok a) ∧ Reparses a
  | .last first _, ends =>
    List.forall_mem_singleton.mpr
      (first.reparses (head?_trimStart _) (delimits_trimStart_iff.mp ends))
  | .more first joined _ others, ends =>
    List.forall_mem_cons.mpr
      ⟨first.reparses (head?_trimStart _) (delimits_of_trimStart_eq joined rfl), others.reparses ends⟩

theorem ReadsArgument.reparses {u a u'} : ReadsArgument u a u' → u.head?.any isBlank = false →
    Delimits u' → (a = wildcard ∨ IsNumber a ∨ parse a.fullName = .ok a) ∧ Reparses a
  | .number digit, _, _ => by
    have number : IsNumber _ := ⟨_, takeWhile_ne_nil digit, List.all_takeWhile, rfl⟩
    exact ⟨.inr (.inl number), .of_no_parts rfl rfl rfl⟩
  | .wildcard, _, _ => ⟨.inl rfl, .of_no_parts rfl rfl rfl⟩
  | .type _ _ read, trimmed, ends =>
    ⟨.inr (.inr (read.reads_again trimmed ends)), read.reparses⟩

theorem ReadsParameterList.reparses {u parameters u'} : ReadsParameterList u parameters u' →
    ∀ ps, parameters = some ps → ∀ p ∈ ps, parse p.fullName = .ok p ∧ Reparses p
  | .none _, _, list => nomatch list
  | .some list, _, rfl => list.reparses

theorem ReadsParameters.reparses {u ts u'} : ReadsParameters u ts u' →
    ∀ p ∈ ts, parse p.fullName = .ok p ∧ Reparses p
  | .nil _ => nofun
  | .last _ first closed =>
    List.forall_mem_singleton.mpr
      ⟨first.reads_again (head?_trimStart _) (delimits_of_trimStart_eq closed rfl), first.reparses⟩
  | .more _ first joined others =>
    List.forall_mem_cons.mpr
      ⟨⟨first.reads_again (head?_trimStart _) (delimits_of_trimStart_eq joined rfl),
        first.reparses⟩, others.reparses⟩

end

/-- **The full name of a type name is its text without the blanks at either end,
and it reads as the same tree; so do the full names of the arguments and the
parameters of everything that stands in the tree, numbers and wildcards aside.** -/
theorem parse_fullName {text : String} {t : TypeTree} (h : parse text = .ok t) :
    t.fullName = trimmed text ∧ parse t.fullName = .ok t ∧ ∀ r, Occurs r t → PartsReparse r := by
  obtain ⟨rest, read, blank⟩ := parse_eq_ok_iff.mp h
  have full : t.fullName = trimmed text := by
    obtain ⟨head, same⟩ := read.isRest.suffix
    have name : t.fullName = readText (trimStart text.toList) rest := by
      cases read
      rfl
    rw [name, readText, trimmed, trim, ← same, readPart_append,
      trimEnd_append_of_blank (trimStart_eq_nil_iff.mp blank)]
  have again := read.reads_again (head?_trimStart _) (by rw [Delimits, blank]; rfl)
  exact ⟨full, again, read.reparses⟩

/-- A type name with blanks around it and between its parts, a number and a type
as arguments, and a parameter. -/
theorem parse_fullName_blanks :
    ∃ t, parse " A<int * ,3> (B) " = .ok t ∧ t.fullName = "A<int * ,3> (B)" ∧
      parse t.fullName = .ok t ∧ ∀ r, Occurs r t → PartsReparse r := by
  have accepted : (parse " A<int * ,3> (B) ").isOk = true := by decide +kernel
  cases read : parse " A<int * ,3> (B) " with
  | error e =>
    rw [read] at accepted
    cases accepted
  | ok t =>
    obtain ⟨full, again, parts⟩ := parse_fullName read
    have text : trimmed " A<int * ,3> (B) " = "A<int * ,3> (B)" := by decide +kernel
    exact ⟨t, rfl, full.trans text, again, parts⟩

end WatchView.TypeTree
