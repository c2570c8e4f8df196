import WatchView.Proofs.TypeTree.Derived
import WatchView.Proofs.TypeTree.Matching
/-!
# The shape of what is read

The trees that are read off a text are not all the trees there are. A wildcard stands
in them as a template argument only, qualifiers are plain segments, an array has one
extent of 63 bits or an open one, arguments come from between angle brackets with
something in them, and the full name of a tree is a part of the text (`IsShaped`). The
readers build a tree piece by piece, the name first, which has the arguments and the
qualifiers (`IsNamed`), and give it markers, extent, parameters and full name behind that
(`IsNamed.throughout`).

**All that stands in a type name is of this shape** (`throughout_isShaped`).
-/

namespace WatchView

open Text

/-! ## Names and markers -/

namespace TypeTree

/-- A name where it stands in a text, and the arguments that belong to it: none, or those
between angle brackets behind an identifier. -/
inductive Names (text : List Char) : List Char → List TypeTree → Prop
  | number {cs} (here : cs <:+ text) (digit : cs.head?.any Char.isDigit = true) :
      Names text (cs.takeWhile Char.isDigit) []
  | builtin {cs spelling rest} (here : cs <:+ text)
      (read : Primitive.read? cs = some (spelling, rest)) : Names text spelling.toList []
  | plain {cs} (here : cs <:+ text) (starts : cs.head?.any isIdentStart = true)
      (plain : (trimStart (cs.dropWhile isIdent)).head? ≠ some '<') :
      Names text (cs.takeWhile isIdent) []
  | template {cs inside args rest} (here : cs <:+ text)
      (starts : cs.head?.any isIdentStart = true)
      (opens : trimStart (cs.dropWhile isIdent) = '<' :: (inside ++ '>' :: rest))
      (filled : trimStart inside ≠ []) (some_args : args ≠ [])
      (list : ReadsArguments (inside ++ '>' :: rest) args ('>' :: rest)) :
      Names text (cs.takeWhile isIdent) args

variable {cs rest text : List Char} {c : Char}

theorem not_isMarker_of_isIdent (h : isIdent c = true) : isMarker c = false :=
  Bool.eq_false_iff.mpr fun marker => Bool.eq_false_iff.mp (not_isIdent_of_isMarker marker) h

theorem not_isMarker_of_isBlank (h : isBlank c = true) : isMarker c = false := by
  by_contra marker
  rw [Bool.not_eq_false, isMarker, Bool.or_eq_true, beq_iff_eq, beq_iff_eq] at marker
  rcases marker with rfl | rfl
  · exact absurd h (by decide)
  · exact absurd h (by decide)

theorem noMarker_of_all {p : Char → Bool} (imp : ∀ c, p c = true → isMarker c = false)
    (all : cs.all p = true) : ∀ c ∈ cs, isMarker c = false := fun c mem =>
  imp c (List.all_eq_true.mp all c mem)

end TypeTree

namespace Primitive

open TypeTree

variable {cs rest : List Char}

/-- Leading words are made of words and blanks. -/
theorem noMarker_of_mem_leadingWords {n : Nat} {word : String}
    (mem : (word, rest) ∈ leadingWords n cs) :
    ∃ front, cs = front ++ rest ∧ ∀ c ∈ front, isMarker c = false := by
  induction n generalizing cs with
  | zero => cases mem
  | succ n ih =>
    have first : ∀ c ∈ cs.takeWhile isWord, isMarker c = false :=
      noMarker_of_all (fun _ word => not_isMarker_of_isIdent (isIdent_of_isWord word))
        List.all_takeWhile
    simp only [leadingWords] at mem
    split at mem
    · cases mem
    · rcases List.mem_cons.mp mem with same | mem
      · cases same
        exact ⟨_, List.takeWhile_append_dropWhile.symm, first⟩
      · split at mem
        · obtain ⟨front, same, others⟩ := ih mem
          have blanks : ∀ c ∈ (cs.dropWhile isWord).takeWhile isBlank, isMarker c = false :=
            noMarker_of_all (fun _ => not_isMarker_of_isBlank) List.all_takeWhile
          refine ⟨cs.takeWhile isWord ++ ((cs.dropWhile isWord).takeWhile isBlank ++ front), ?_,
            List.forall_mem_append.mpr ⟨first, List.forall_mem_append.mpr ⟨blanks, others⟩⟩⟩
          rw [List.append_assoc, List.append_assoc, ← same, trimStart,
            List.takeWhile_append_dropWhile, List.takeWhile_append_dropWhile]
        · cases mem

theorem noMarker_vectorText {blank blank' : Char} {digits : List Char}
    (h : isBlank blank = true) (h' : isBlank blank' = true)
    (all : digits.all Char.isDigit = true) :
    ∀ c ∈ vectorText blank blank' digits, isMarker c = false := by
  have unsigned := noMarker_of_all (fun _ => not_isMarker_of_isIdent)
    (show "unsigned".toList.all isIdent = true by decide)
  have char := noMarker_of_all (fun _ => not_isMarker_of_isIdent)
    (show "char".toList.all isIdent = true by decide)
  have plain (c : Char) (h : (!isMarker c) = true) : isMarker c = false := by
    rwa [Bool.not_eq_true'] at h
  have opening := noMarker_of_all plain
    (show "__attribute__((ext_vector_type(".toList.all (fun c => !isMarker c) = true by
      decide +kernel)
  have number := noMarker_of_all (fun _ digit => not_isMarker_of_isIdent (isIdent_of_isDigit digit))
    all
  have closing := noMarker_of_all plain
    (show ")))".toList.all (fun c => !isMarker c) = true by decide)
  have behind := List.forall_mem_append.mpr
    ⟨opening, List.forall_mem_append.mpr ⟨number, closing⟩⟩
  have second := List.forall_mem_append.mpr
    ⟨char, List.forall_mem_cons.mpr ⟨not_isMarker_of_isBlank h', behind⟩⟩
  exact List.forall_mem_append.mpr
    ⟨unsigned, List.forall_mem_cons.mpr ⟨not_isMarker_of_isBlank h, second⟩⟩

/-- No marker is part of a built-in name. -/
theorem noMarker_of_read? {spelling : String} (h : read? cs = some (spelling, rest)) :
    ∀ c ∈ spelling.toList, isMarker c = false := by
  obtain ⟨found, -, rfl⟩ := read?_eq_some_iff.mp h
  rw [behind?_eq, Option.or_eq_some_iff] at found
  rw [String.toList_ofList]
  rcases found with vector | ⟨-, words⟩
  · obtain ⟨blank, blank', digits, blank_, blank'_, -, all, rfl⟩ :=
      exists_vectorText_of_behindVector? vector
    rw [readPart_append]
    exact noMarker_vectorText blank_ blank'_ all
  · obtain ⟨spelling, -, agrees⟩ := List.exists_of_findSome?_eq_some words
    obtain ⟨word, mem⟩ := mem_of_behindSpelling? agrees
    obtain ⟨front, rfl, plain⟩ := noMarker_of_mem_leadingWords mem
    rw [readPart_append]
    exact plain

end Primitive

namespace TypeTree

variable {cs rest text : List Char}

/-- A name has a character at least, and none of them is a marker. -/
theorem Names.noMarker {name : List Char} {args : List TypeTree} (h : Names text name args) :
    name ≠ [] ∧ ∀ c ∈ name, isMarker c = false := by
  have identifier {cs : List Char} (starts : cs.head?.any isIdentStart = true) :
      cs.takeWhile isIdent ≠ [] ∧ ∀ c ∈ cs.takeWhile isIdent, isMarker c = false := by
    have first := head?_any_imp (fun _ => isIdent_of_isIdentStart) starts
    exact ⟨takeWhile_ne_nil first,
      noMarker_of_all (fun _ => not_isMarker_of_isIdent) List.all_takeWhile⟩
  cases h with
  | number _ digit =>
    refine ⟨takeWhile_ne_nil digit, ?_⟩
    exact noMarker_of_all (fun _ digit => not_isMarker_of_isIdent (isIdent_of_isDigit digit))
      List.all_takeWhile
  | builtin _ read =>
    refine ⟨fun none => ?_, Primitive.noMarker_of_read? read⟩
    have first := head?_of_read? read
    obtain ⟨-, -, rfl⟩ := Primitive.read?_eq_some_iff.mp read
    rw [String.toList_ofList] at none
    rw [← head?_readPart (Primitive.isRest_of_read? read), none] at first
    cases first
  | plain _ starts => exact identifier starts
  | template _ starts => exact identifier starts

/-! ## Parts of a text -/

/-- A text that stands in another one, with no blanks at its ends. -/
structure IsPart (text : List Char) (s : String) : Prop where
  filled : s ≠ ""
  trimmed : Text.trimmed s = s
  stands : s.toList <:+: text

/-- What was read is a part of the text. -/
theorem isPart_readText (here : cs <:+ text) (solid : cs.head?.any isBlank = false)
    (read : IsRest rest cs) : IsPart text (readText cs rest) := by
  obtain ⟨front, rfl⟩ := read.suffix
  obtain ⟨b, -, same⟩ := exists_trimEnd_append front
  have first : front.head?.any isBlank = false := by
    rw [← head?_readPart read, readPart_append] at solid
    exact solid
  have nonempty : front ≠ [] := by
    rintro rfl
    exact absurd read.shorter (Nat.lt_irrefl _)
  have solid' : (trimEnd front).head? = front.head? := head?_trimEnd first
  rw [readText, readPart_append]
  refine ⟨fun none => ?_, ?_, ?_⟩
  · have empty : trimEnd front = [] := by simpa using congrArg String.toList none
    rw [empty] at solid'
    exact nonempty (List.head?_eq_none_iff.mp solid'.symm)
  · have kept : trim (trimEnd front) = trimEnd front :=
      trim_of_noBlank (by rw [solid']; exact first) (getLast?_trimEnd front)
    rw [trimmed, String.toList_ofList, kept]
  · rw [String.toList_ofList]
    have leads : trimEnd front <+: front ++ rest :=
      List.IsPrefix.trans ⟨b, same.symm⟩ (List.prefix_append front rest)
    exact leads.isInfix.trans here.isInfix

/-- A front without blanks is a part of the text. -/
theorem isPart_of_solid {word : List Char} (here : word ++ rest <:+ text) (nonempty : word ≠ [])
    (solid : ∀ c ∈ word, isBlank c = false) : IsPart text (String.ofList word) := by
  refine ⟨fun none => ?_, ?_, ?_⟩
  · exact nonempty (by simpa using congrArg String.toList none)
  · rw [trimmed, String.toList_ofList, trim_of_forall_noBlank solid]
  · rw [String.toList_ofList]
    exact (List.prefix_append word rest).isInfix.trans here.isInfix

/-! ## Shapes -/

/-- A qualifier is a name, with arguments maybe, and nothing else. -/
structure IsQualifier (q : TypeTree) : Prop where
  named : q ≠ wildcard
  qualifiers : q.qualifiers = []
  dimensions : q.dimensions = none
  parameters : q.parameters = none

/-- The shape of a tree that was read off a text. -/
structure IsShaped (text : List Char) (t : TypeTree) : Prop where
  /-- The full name is a part of the text. -/
  fullName : IsPart text t.fullName
  /-- Behind the name stand markers only, and the arguments belong to the name. -/
  baseName : t = wildcard ∨ ∃ name markers, t.baseName.toList = name ++ markers ∧
    Names text name t.args ∧ (∀ c ∈ name, isMarker c = false) ∧
    ∀ c ∈ markers, isMarker c = true
  qualifiers : ∀ q ∈ t.qualifiers, IsQualifier q
  /-- No parameter is a wildcard. -/
  parameters : ∀ ps, t.parameters = some ps → wildcard ∉ ps
  /-- An array has one extent. -/
  dimensions : t.dimensions = none ∨
    ∃ d, t.dimensions = some [d] ∧ (d = -1 ∨ 0 ≤ d ∧ d < bound63)

/-- A tree of which the name was read, with its arguments, and its qualifiers. -/
structure IsNamed (text : List Char) (t : TypeTree) : Prop where
  name : Names text t.baseName.toList t.args
  args : ∀ a ∈ t.args, Throughout (IsShaped text) a
  qualifiers : ∀ q ∈ t.qualifiers, IsQualifier q ∧ Throughout (IsShaped text) q

/-- An extent that fits in 63 bits, an open one, or none. -/
def Fits (extent : Option Extent) : Prop := ∀ n, extent = some (.elements n) → n < bound63

theorem Fits.dimensions {extent : Option Extent} (h : Fits extent) :
    extent.map (fun e => [e.toInt]) = none ∨
      ∃ d, extent.map (fun e => [e.toInt]) = some [d] ∧ (d = -1 ∨ 0 ≤ d ∧ d < bound63) := by
  cases extent with
  | none => exact .inl rfl
  | some e =>
    refine .inr ⟨e.toInt, rfl, ?_⟩
    cases e with
    | unbounded => exact .inl rfl
    | elements n =>
      have bounded : n < bound63 := h n rfl
      simp only [Extent.toInt]
      omega

/-- A tree with a name is of the shape when markers, extent, parameters and full name
are put in. -/
theorem IsNamed.throughout {t : TypeTree} (h : IsNamed text t) {full : String}
    {markers : List Char} {parameters : Option (List TypeTree)} {extent : Option Extent}
    (part : IsPart text full) (marked : ∀ c ∈ markers, isMarker c = true) (fits : Fits extent)
    (applied : ∀ ps, parameters = some ps →
      wildcard ∉ ps ∧ ∀ p ∈ ps, Throughout (IsShaped text) p) :
    Throughout (IsShaped text)
      (named full (t.baseName ++ String.ofList markers) t.qualifiers t.args parameters extent) := by
  refine throughout_iff.mpr ⟨?_, fun k q mem => ?_⟩
  · refine ⟨part, .inr ⟨t.baseName.toList, markers, ?_, h.name, h.name.noMarker.2, marked⟩,
      fun q mem => (h.qualifiers q mem).1, fun ps list => (applied ps list).1, fits.dimensions⟩
    rw [baseName, String.toList_append, String.toList_ofList]
  · cases k with
    | qualifier => exact (h.qualifiers q mem).2
    | arg => exact h.args q mem
    | parameter =>
      cases parameters with
      | none => cases mem
      | some ps => exact (applied ps rfl).2 q mem

/-- A name with its arguments alone is of the shape, and may be a qualifier. -/
theorem Names.segment {name : List Char} {args : List TypeTree} (h : Names text name args)
    (inside : ∀ a ∈ args, Throughout (IsShaped text) a) {full : String} (part : IsPart text full) :
    let t := named full (String.ofList name) [] args none none
    IsNamed text t ∧ IsQualifier t ∧ Throughout (IsShaped text) t := by
  have read : IsNamed text (named full (String.ofList name) [] args none none) := by
    refine ⟨?_, inside, nofun⟩
    rw [baseName, String.toList_ofList]
    exact h
  have unmarked : String.ofList name ++ String.ofList [] = String.ofList name :=
    String.append_empty
  have shaped := @IsNamed.throughout text _ read full [] none none part nofun nofun nofun
  rw [baseName, unmarked] at shaped
  exact ⟨read, ⟨nofun, rfl, rfl, rfl⟩, shaped⟩

theorem isShaped_wildcard (part : IsPart text "*") : Throughout (IsShaped text) wildcard := by
  refine throughout_iff.mpr ⟨⟨part, .inl rfl, nofun, nofun, .inl rfl⟩, fun k q mem => ?_⟩
  rw [parts_wildcard] at mem
  cases mem

/-! ## What the readers build -/

theorem ReadsMarkers.marked {markers : List Char} (h : ReadsMarkers cs markers rest) :
    ∀ c ∈ markers, isMarker c = true := by
  induction h with
  | nil => nofun
  | cons marker _ ih => exact List.forall_mem_cons.mpr ⟨marker, ih⟩

theorem ReadsExtent.fits {extent : Option Extent} (h : ReadsExtent cs extent rest) :
    Fits extent := by
  intro n some
  cases h with
  | none => cases some
  | unbounded => cases some
  | elements number =>
    cases some
    exact digits?_lt number

/-- Arguments are read past the blanks in front of them. -/
theorem ReadsArguments.isRest_trimStart {args : List TypeTree} (h : ReadsArguments cs args rest) :
    IsRest rest (trimStart cs) := by
  cases h with
  | last first => exact IsRest.of_suffix (trimStart_suffix _) first.isRest
  | @more _ _ behind next _ _ first joined _ others =>
    have comma := IsRest.of_suffix (trimStart_suffix behind) first.isRest
    rw [joined] at comma
    exact (others.isRest.trans (IsRest.cons _ _)).trans comma

theorem ReadsArguments.ne_nil {args : List TypeTree} (h : ReadsArguments cs args rest) :
    args ≠ [] := by
  cases h <;> exact List.cons_ne_nil _ _

/-- Angle brackets have something between them. -/
theorem ReadsArguments.exists_inside {args : List TypeTree}
    (h : ReadsArguments cs args ('>' :: rest)) :
    ∃ inside, cs = inside ++ '>' :: rest ∧ trimStart inside ≠ [] := by
  obtain ⟨inside, rfl⟩ := h.isRest.suffix
  refine ⟨inside, rfl, fun blank => ?_⟩
  have taken := h.isRest_trimStart
  have bracket : trimStart ('>' :: rest) = '>' :: rest := trimStart_cons (by decide) rest
  rw [trimStart_append_of_blank (trimStart_eq_nil_iff.mp blank), bracket] at taken
  exact Nat.lt_irrefl _ taken.shorter

mutual

theorem ReadsType.isShaped {text cs t rest} : ReadsType cs t rest → cs <:+ text →
    cs.head?.any isBlank = false → t ≠ wildcard ∧ Throughout (IsShaped text) t
  | .mk head marked sized applied, here, solid => by
    have read := (ReadsType.mk head marked sized applied).isRest
    have name := head.isNamed ((skipConst_suffix cs).trans here)
    have behind := sized.suffix.trans (marked.suffix.trans ((skipConst_suffix _).trans
      ((trimStart_suffix _).trans (head.isRest.suffix.trans (skipConst_suffix cs)))))
    have parameters := applied.isShaped (behind.trans here)
    exact ⟨nofun, name.throughout (isPart_readText here solid read) marked.marked sized.fits
      parameters⟩

theorem ReadsName.isNamed {text cs t rest} : ReadsName cs t rest → cs <:+ text → IsNamed text t
  | .builtin read, here => ⟨.builtin here read, nofun, nofun⟩
  | .segments _ chain, here => chain.isNamed here

theorem ReadsSegments.isNamed {text cs t rest} : ReadsSegments cs t rest → cs <:+ text →
    IsNamed text t
  | .last first _, here => (first.isNamed here).1
  | @ReadsSegments.more _ _ behind _ _ _ first joined _ others, here => by
    have next := (trimStart_suffix behind).trans (first.isRest.suffix.trans here)
    rw [joined] at next
    have name := others.isNamed ((trimStart_suffix _).trans
      ((List.suffix_cons _ _).trans ((List.suffix_cons _ _).trans next)))
    exact ⟨name.name, name.args,
      List.forall_mem_cons.mpr ⟨(first.isNamed here).2, name.qualifiers⟩⟩

theorem ReadsSegment.isNamed {text cs t rest} : ReadsSegment cs t rest → cs <:+ text →
    IsNamed text t ∧ IsQualifier t ∧ Throughout (IsShaped text) t
  | .plain starts plain, here => by
    have solid := noBlank_of_isIdent (fun _ => isIdent_of_isIdentStart) starts
    have part := isPart_readText here solid (isRest_identifier starts)
    exact (Names.plain here starts plain).segment nofun part
  | .template starts opens list, here => by
    have solid := noBlank_of_isIdent (fun _ => isIdent_of_isIdentStart) starts
    have part := isPart_readText here solid (ReadsSegment.template starts opens list).isRest
    have bracket := (isRest_identifier starts).suffix.trans here
    rw [opens] at bracket
    have args := list.isShaped ((List.suffix_cons _ _).trans bracket)
    have some_args := list.ne_nil
    obtain ⟨inside, rfl, filled⟩ := list.exists_inside
    exact (Names.template here starts opens filled some_args list).segment args part

theorem ReadsArguments.isShaped {text cs ts rest} : ReadsArguments cs ts rest → cs <:+ text →
    ∀ a ∈ ts, Throughout (IsShaped text) a
  | .last first _, here =>
    List.forall_mem_singleton.mpr
      (first.isShaped ((trimStart_suffix _).trans here) (head?_trimStart _))
  | @ReadsArguments.more _ _ behind _ _ _ first joined _ others, here => by
    have start := (trimStart_suffix cs).trans here
    have next := (trimStart_suffix behind).trans (first.isRest.suffix.trans start)
    rw [joined] at next
    exact List.forall_mem_cons.mpr ⟨first.isShaped start (head?_trimStart _),
      others.isShaped ((List.suffix_cons _ _).trans next)⟩

theorem ReadsArgument.isShaped {text cs a rest} : ReadsArgument cs a rest → cs <:+ text →
    cs.head?.any isBlank = false → Throughout (IsShaped text) a
  | .number digit, here, _ => by
    have digits : cs.takeWhile Char.isDigit ++ cs.dropWhile Char.isDigit <:+ text := by
      rwa [List.takeWhile_append_dropWhile]
    have solid : ∀ c ∈ cs.takeWhile Char.isDigit, isBlank c = false := fun c mem =>
      not_isBlank_of_isIdent (isIdent_of_isDigit (List.all_eq_true.mp List.all_takeWhile c mem))
    have part := isPart_of_solid digits (takeWhile_ne_nil digit) solid
    exact ((Names.number here digit).segment nofun part).2.2
  | .wildcard, here, _ =>
    isShaped_wildcard
      (isPart_of_solid here (List.cons_ne_nil _ _) (List.forall_mem_singleton.mpr rfl))
  | .type _ _ read, here, solid => (read.isShaped here solid).2

theorem ReadsParameterList.isShaped {text cs parameters rest} :
    ReadsParameterList cs parameters rest → cs <:+ text →
      ∀ ps, parameters = some ps → wildcard ∉ ps ∧ ∀ p ∈ ps, Throughout (IsShaped text) p
  | .none _, _, _, list => nomatch list
  | .some list, here, _, rfl => by
    have each := list.isShaped ((List.suffix_cons _ _).trans here)
    exact ⟨fun mem => (each wildcard mem).1 rfl, fun p mem => (each p mem).2⟩

theorem ReadsParameters.isShaped {text cs ts rest} : ReadsParameters cs ts rest →
    cs <:+ text → ∀ p ∈ ts, p ≠ wildcard ∧ Throughout (IsShaped text) p
  | .nil _, _ => nofun
  | .last _ first _, here =>
    List.forall_mem_singleton.mpr
      (first.isShaped ((trimStart_suffix _).trans here) (head?_trimStart _))
  | @ReadsParameters.more _ _ behind _ _ _ _ first joined others, here => by
    have start := (trimStart_suffix cs).trans here
    have next := (trimStart_suffix behind).trans (first.isRest.suffix.trans start)
    rw [joined] at next
    exact List.forall_mem_cons.mpr ⟨first.isShaped start (head?_trimStart _),
      others.isShaped ((List.suffix_cons _ _).trans next)⟩

end

/-- **The shape of a type name.** It is no wildcard, and all that stands in it, at any
depth, is of the shape of what is read off its text. -/
theorem throughout_isShaped {text : String} {t : TypeTree} (h : parse text = .ok t) :
    t ≠ wildcard ∧ ∀ r, Occurs r t → IsShaped text.toList r := by
  obtain ⟨rest, read, -⟩ := parse_eq_ok_iff.mp h
  exact read.isShaped (trimStart_suffix text.toList) (head?_trimStart text.toList)

/-- A pointer to a map in a namespace, as an array and with a parameter; the arguments are
a wildcard and a type with a number for an argument. -/
theorem throughout_isShaped_map :
    ∃ t, parse " std::map<*, A<3>> const*[4] (B&) " = .ok t ∧ t.dimensions = some [4] ∧
      t.args.map isWildcard = [true, false] ∧ t ≠ wildcard ∧
      ∀ r, Occurs r t → IsShaped " std::map<*, A<3>> const*[4] (B&) ".toList r := by
  obtain ⟨t, read⟩ := exists_of_isOk " std::map<*, A<3>> const*[4] (B&) " (by decide +kernel)
  have extent : t.dimensions = some [4] := eq_of_map_parse? (by decide +kernel) read
  have args : t.args.map isWildcard = [true, false] :=
    eq_of_map_parse? (f := fun t => t.args.map isWildcard) (by decide +kernel) read
  obtain ⟨named, shaped⟩ := throughout_isShaped read
  exact ⟨t, read, extent, args, named, shaped⟩

end TypeTree

end WatchView
