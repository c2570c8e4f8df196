import WatchView.Proofs.TypeTree.Abreast
import WatchView.Proofs.TypeTree.Grammar
/-!
# What is read is derived

Each reader takes a phrase off the text, and the tree it builds is derived from that phrase;
what it leaves is what is behind the phrase and the blanks that end it. This is shown by
induction over what is read, one statement for each relation of `ReadsType`. The only place
where the grammar has no rule for what is read is a comma with a closing parenthesis behind it,
so the rule for such a comma is allowed if there is one in the text.

**Every text that is read is derived with the tree it is read as, once a comma is allowed at
the end of parameters, and without that if and only if no comma of the text has a closing
parenthesis behind it** (`derives_of_parse`).
-/

namespace WatchView.TypeTree

open Text

variable {comma : Prop} {cs rest behind start next : List Char} {ls : List Lexeme}

/-- The text that was read is the text of its phrase. -/
theorem readText_eq_textOf (suffix : rest <:+ cs) (spells : Spells ls cs (trimStart rest)) :
    readText cs rest = textOf ls := by
  obtain ⟨front, rfl⟩ := suffix
  have parts : rest.takeWhile isBlank ++ trimStart rest = rest := List.takeWhile_append_dropWhile
  have same : front ++ rest.takeWhile isBlank = written ls := by
    have whole := spells.eq_append
    rw [← parts, trimStart_append_of_blank List.all_takeWhile, trimStart_trimStart,
      ← List.append_assoc] at whole
    exact List.append_cancel_right whole
  rw [readText, readPart_append, textOf, ← same, trimEnd_append_of_blank List.all_takeWhile]

/-! ## Words, markers and extents -/

theorem head?_skipConst (solid : cs.head?.any isBlank = false) :
    (skipConst cs).head?.any isBlank = false := by
  rw [skipConst_eq]
  split
  · exact head?_trimStart _
  · exact solid

/-- What is skipped is an optional `const`. -/
theorem exists_const (cs : List Char) : ∃ ls, IsConst ls ∧ Spells ls cs (skipConst cs) := by
  rw [skipConst_eq]
  split
  · rename_i const
    have spells := Spells.run (fun _ => id) (by rw [const]; decide)
      (head?_dropWhile_any isIdent cs)
    rw [const] at spells
    exact ⟨_, .present _, spells⟩
  · exact ⟨[], .absent, .nil⟩

theorem ReadsMarkers.derived {markers : List Char} (h : ReadsMarkers cs markers rest)
    (solid : cs.head?.any isBlank = false) :
    ∃ ls, IsMarkers ls markers ∧ Spells ls cs rest ∧ rest.head?.any isBlank = false := by
  induction h with
  | nil => exact ⟨[], .nil, .nil, solid⟩
  | @cons c cs markers rest marker _ ih =>
    obtain ⟨const, behind, spells⟩ := exists_const (trimStart cs)
    obtain ⟨ls, more, spells', solid'⟩ := ih (head?_skipConst (head?_trimStart cs))
    have mark := Spells.mark solid (not_isIdent_of_isMarker marker) cs
    exact ⟨_, .cons marker behind more, mark.append (spells.append spells'), solid'⟩

/-- A number, and the blanks behind it. -/
theorem exists_digits (nonempty : cs.takeWhile Char.isDigit ≠ [])
    (ends : (cs.dropWhile Char.isDigit).head?.any isIdent = false) :
    ∃ (digits : Digits) (b : List Char), cs.takeWhile Char.isDigit = digits.chars ∧
      Spells [⟨digits.chars, b⟩] cs (trimStart (cs.dropWhile Char.isDigit)) :=
  ⟨⟨_, nonempty, List.all_takeWhile⟩, _, rfl, .run (fun _ => isIdent_of_isDigit) nonempty ends⟩

theorem ReadsExtent.derived {extent : Option Extent} (h : ReadsExtent cs extent rest)
    (solid : cs.head?.any isBlank = false) :
    ∃ ls, IsArray ls extent ∧ Spells ls cs rest ∧ rest.head?.any isBlank = false := by
  cases h with
  | none => exact ⟨[], .absent, .nil, solid⟩
  | @unbounded cs =>
    have closed := Spells.mark (c := ']') (by decide) (by decide) cs
    exact ⟨_, .unbounded _, closed.mark_cons (by decide) (by decide), head?_trimStart cs⟩
  | @elements cs count rest number closed =>
    have nonempty : (trimStart cs).takeWhile Char.isDigit ≠ [] := by
      intro none
      rw [none] at number
      cases number
    obtain ⟨digits, b, same, spells⟩ :=
      exists_digits nonempty (delimits_of_trimStart_eq closed (by decide)).head?
    rw [same] at number
    rw [closed] at spells
    have opened := Spells.mark (c := '[') (by decide) (by decide) cs
    have bracket := Spells.mark (c := ']') (by decide) (by decide) rest
    exact ⟨_, .elements digits _ b _ number, opened.append (spells.append bracket),
      head?_trimStart rest⟩

/-! ## Built-in names -/

/-- What a word cannot go on with, and is no dollar sign, an identifier cannot go on with. -/
theorem noIdent_of_noWord (noWord : cs.head?.any isWord = false) (noDollar : cs.head? ≠ some '$') :
    cs.head?.any isIdent = false := by
  cases cs with
  | nil => rfl
  | cons c cs =>
    refine Bool.eq_false_iff.mpr fun ident => noDollar ?_
    rw [List.head?_cons, Primitive.eq_dollar_of_isIdent ident noWord]

/-- A word of a built-in name, and the blanks behind it. -/
theorem spells_word (nonempty : cs.takeWhile isWord ≠ [])
    (noDollar : (cs.dropWhile isWord).head? ≠ some '$') :
    Spells [⟨cs.takeWhile isWord, (cs.dropWhile isWord).takeWhile isBlank⟩] cs
      (trimStart (cs.dropWhile isWord)) :=
  .run (fun _ => isIdent_of_isWord) nonempty
    (noIdent_of_noWord (head?_dropWhile_any isWord cs) noDollar)

/-- The words that spell a built-in name. The name ends with the last of them. -/
theorem exists_words {spelling : List (List String)} {n : Nat}
    (h : Primitive.behindSpelling? spelling (Primitive.leadingWords n cs) = some rest)
    (noDollar : rest.head? ≠ some '$') :
    ∃ ls front, List.Forall₂ (fun l choices => String.ofList l.token ∈ choices) ls spelling ∧
      Spells ls cs (trimStart rest) ∧ cs = front ++ rest ∧ front ≠ [] ∧
        front.getLast?.any isBlank = false := by
  induction spelling generalizing n cs with
  | nil => cases h
  | cons choices more ih =>
    cases n with
    | zero => cases more <;> cases h
    | succ n =>
      rw [leadingWords_succ] at h
      split at h
      · cases more <;> cases h
      rename_i filled
      have nonempty : cs.takeWhile isWord ≠ [] := by simpa using filled
      cases more with
      | nil =>
        simp only [Primitive.behindSpelling?, Option.ite_none_right_eq_some, Option.some.injEq,
          List.contains_iff_mem] at h
        obtain ⟨known, rfl⟩ := h
        refine ⟨_, cs.takeWhile isWord, .cons known .nil, spells_word nonempty noDollar,
          List.takeWhile_append_dropWhile.symm, nonempty, ?_⟩
        cases last : (cs.takeWhile isWord).getLast? with
        | none => rfl
        | some c =>
          have word := List.all_eq_true.mp List.all_takeWhile c (List.mem_of_getLast? last)
          exact not_isBlank_of_isIdent (isIdent_of_isWord word)
      | cons choices' more =>
        simp only [Primitive.behindSpelling?, Option.ite_none_right_eq_some,
          List.contains_iff_mem] at h
        obtain ⟨known, h⟩ := h
        -- no word starts with a dollar sign
        have noDollar' : (cs.dropWhile isWord).head? ≠ some '$' := by
          intro dollar
          obtain ⟨tail, same⟩ := List.head?_eq_some_iff.mp dollar
          rw [same, trimStart_cons (by decide), Primitive.leadingWords_of_head rfl] at h
          cases h
        obtain ⟨ls, front, words, spells, text, _, solid⟩ := ih h
        refine ⟨_, cs.takeWhile isWord ++ ((cs.dropWhile isWord).takeWhile isBlank ++ front),
          .cons known words, (spells_word nonempty noDollar').append spells, ?_, ?_, ?_⟩
        · rw [List.append_assoc, List.append_assoc, ← text, trimStart,
            List.takeWhile_append_dropWhile, List.takeWhile_append_dropWhile]
        · simp [nonempty]
        · rw [← List.append_assoc]
          exact getLast?_append_of_ne_nil ‹_› solid _

theorem exists_builtin (found : Primitive.behind? cs = some rest)
    (noDollar : rest.head? ≠ some '$') :
    ∃ ls, IsBuiltin ls ∧ Spells ls cs (trimStart rest) ∧
      (readPart cs rest).getLast?.any isBlank = false := by
  rw [Primitive.behind?_eq, Option.or_eq_some_iff] at found
  rcases found with vector | ⟨-, words⟩
  · obtain ⟨blank, blank', digits, isBlank, isBlank', nonempty, all, rfl⟩ :=
      Primitive.exists_vectorText_of_behindVector? vector
    obtain ⟨ls, same, spells⟩ := spells_vectorText isBlank isBlank' nonempty all rest
    refine ⟨ls, .vector ⟨digits, nonempty, all⟩ same, spells, ?_⟩
    rw [readPart_append, Primitive.getLast?_vectorText]
    decide
  · obtain ⟨spelling, known, agrees⟩ := List.exists_of_findSome?_eq_some words
    obtain ⟨ls, front, same, spells, rfl, -, solid⟩ := exists_words agrees noDollar
    refine ⟨ls, .words known same, spells, ?_⟩
    rwa [readPart_append]

/-! ## Type names -/

/-- Whether the rule for a comma at the end of parameters is allowed if the text has one. -/
def Allows (comma : Prop) (cs : List Char) : Prop := hasSpareComma cs = true → comma

theorem Allows.of_suffix (h : Allows comma cs) (suffix : rest <:+ cs) : Allows comma rest :=
  fun spare => h (hasSpareComma_of_suffix suffix spare)

/-- An identifier, and the blanks behind it. -/
theorem exists_identifier (starts : start.head?.any isIdentStart = true) :
    ∃ (name : Identifier) (b : List Char), start.takeWhile isIdent = name.chars ∧
      Spells [⟨name.chars, b⟩] start (trimStart (start.dropWhile isIdent)) := by
  obtain ⟨c, tail, rfl⟩ : ∃ c tail, start = c :: tail := by
    cases start with
    | nil => cases starts
    | cons c tail => exact ⟨c, tail, rfl⟩
  have start : isIdentStart c = true := starts
  have word : (c :: tail).takeWhile isIdent = c :: tail.takeWhile isIdent :=
    List.takeWhile_cons_of_pos (isIdent_of_isIdentStart start)
  have spells := Spells.run (fun _ => id)
    (by rw [word]; exact List.cons_ne_nil _ _) (head?_dropWhile_any isIdent (c :: tail))
  exact ⟨⟨_, by rw [word]; exact start, List.all_takeWhile⟩, _, rfl, spells⟩

mutual

theorem ReadsType.derived {cs t rest} : ReadsType cs t rest → Allows comma cs →
    ∃ ls, IsType comma ls t ∧ Spells ls cs (trimStart rest)
  | .mk head marked sized applied, spare => by
    -- each part is cut off where the one in front of it ends; only a list after `<` or `(` can
    -- have a comma in it, so the allowance is passed on to the name and to the parameters
    obtain ⟨front, before, spells⟩ := exists_const cs
    obtain ⟨name, chosen, spells₁⟩ := head.derived (spare.of_suffix spells.suffix)
    obtain ⟨behind, after, spells₂⟩ := exists_const (trimStart _)
    obtain ⟨marks, marked', spells₃, solid₃⟩ :=
      marked.derived (head?_skipConst (head?_trimStart _))
    obtain ⟨array, sized', spells₄, solid₄⟩ := sized.derived solid₃
    have upTo := spells.append (spells₁.append (spells₂.append (spells₃.append spells₄)))
    obtain ⟨list, applied', spells₅⟩ := applied.derived (spare.of_suffix upTo.suffix) solid₄
    have whole := spells.append (spells₁.append (spells₂.append
      (spells₃.append (spells₄.append spells₅))))
    have suffix := (ReadsType.mk head marked sized applied).isRest.suffix
    rw [readText_eq_textOf suffix whole]
    exact ⟨_, .mk rfl before chosen after marked' sized' applied', whole⟩

theorem ReadsName.derived {cs t rest} : ReadsName cs t rest → Allows comma cs →
    ∃ ls, IsName comma ls t ∧ Spells ls cs (trimStart rest)
  | .builtin read, _ => by
    obtain ⟨found, plain, rfl⟩ := Primitive.read?_eq_some_iff.mp read
    obtain ⟨ls, spelled, spells, solid⟩ := exists_builtin found plain
    have text := readText_eq_textOf (Primitive.isRest_of_read? read).suffix spells
    rw [readText, trimEnd_of_getLast? solid] at text
    rw [text]
    exact ⟨ls, .builtin spelled, spells⟩
  | .segments _ chain, spare => by
    obtain ⟨ls, chain, spells⟩ := chain.derived spare
    exact ⟨ls, .segments chain, spells⟩

theorem ReadsSegments.derived {cs t rest} : ReadsSegments cs t rest → Allows comma cs →
    ∃ ls, IsSegments comma ls t ∧ Spells ls cs (trimStart rest)
  | .last first _, spare => by
    obtain ⟨ls, only, spells⟩ := first.derived spare
    rw [trimStart_trimStart]
    exact ⟨ls, .last only, spells⟩
  | @ReadsSegments.more _ _ _ next _ _ first joined _ others, spare => by
    obtain ⟨ls, first, spells⟩ := first.derived spare
    rw [joined] at spells
    have colons := (Spells.mark (c := ':') (by decide) (by decide) next).mark_cons
      (c := ':') (by decide) (by decide)
    have upTo := spells.append colons
    obtain ⟨ls', others, spells'⟩ := others.derived (spare.of_suffix upTo.suffix)
    exact ⟨_, .more _ first others, spells.append (colons.append spells')⟩

theorem ReadsSegment.derived {cs t rest} : ReadsSegment cs t rest → Allows comma cs →
    ∃ ls, IsSegment comma ls t ∧ Spells ls cs (trimStart rest)
  | .plain starts _, _ => by
    obtain ⟨name, b, same, spells⟩ := exists_identifier starts
    have suffix := (isRest_identifier starts).suffix
    rw [← trimStart_trimStart] at spells
    rw [readText_eq_textOf suffix spells, same]
    exact ⟨_, .plain name b, spells⟩
  | @ReadsSegment.template _ inside _ rest starts opens list, spare => by
    obtain ⟨name, b, same, spells⟩ := exists_identifier starts
    rw [opens] at spells
    have opened := Spells.mark (c := '<') (by decide) (by decide) inside
    obtain ⟨ls, args, spells'⟩ := list.derived
      (spare.of_suffix ((List.suffix_cons '<' inside).trans spells.suffix)) rfl
    rw [trimStart_cons (by decide)] at spells'
    have closed := Spells.mark (c := '>') (by decide) (by decide) rest
    have whole := spells.append (opened.append (spells'.append closed))
    have suffix := (ReadsSegment.template starts opens list).isRest.suffix
    rw [readText_eq_textOf suffix whole, same]
    exact ⟨_, .template name _ _ _ rfl args, whole⟩

theorem ReadsArguments.derived {cs ts rest} : ReadsArguments cs ts rest →
    Allows comma cs → Delimits rest →
    ∃ ls, IsArguments comma ls ts ∧ Spells ls (trimStart cs) (trimStart rest)
  | .last first _, spare, delim => by
    obtain ⟨ls, only, spells⟩ := first.derived (spare.of_suffix (trimStart_suffix cs))
      (delimits_trimStart_iff.mp delim)
    rw [trimStart_trimStart]
    exact ⟨ls, .last only, spells⟩
  | @ReadsArguments.more _ _ _ next _ _ first joined _ others, spare, delim => by
    obtain ⟨ls, first', spells⟩ := first.derived (spare.of_suffix (trimStart_suffix cs))
      (delimits_of_trimStart_eq joined (by decide))
    rw [joined] at spells
    have behind := Spells.mark (c := ',') (by decide) (by decide) next
    have suffix : next <:+ cs :=
      (List.suffix_cons ',' next).trans (spells.suffix.trans (trimStart_suffix cs))
    obtain ⟨ls', others, spells'⟩ := others.derived (spare.of_suffix suffix) delim
    exact ⟨_, .more _ first' others, spells.append (behind.append spells')⟩

theorem ReadsArgument.derived {cs t rest} : ReadsArgument cs t rest →
    Allows comma cs → Delimits rest →
    ∃ ls, IsArgument comma ls t ∧ Spells ls cs (trimStart rest)
  | .number digit, _, delim => by
    obtain ⟨digits, b, same, spells⟩ := exists_digits (takeWhile_ne_nil digit) delim.head?
    rw [same]
    exact ⟨_, .number digits b, spells⟩
  | .wildcard, _, _ => ⟨_, .wildcard _, .mark (by decide) (by decide) _⟩
  | .type _ _ read, spare, _ => by
    obtain ⟨ls, type, spells⟩ := read.derived spare
    exact ⟨ls, .type type, spells⟩

theorem ReadsParameterList.derived {cs parameters rest} : ReadsParameterList cs parameters rest →
    Allows comma cs → cs.head?.any isBlank = false →
    ∃ ls, IsParameterList comma ls parameters ∧ Spells ls cs (trimStart rest)
  | .none _, _, solid => ⟨[], .absent, by rw [trimStart_of_head solid]; exact .nil⟩
  | @ReadsParameterList.some cs _ _ list, spare, _ => by
    have opened := Spells.mark (c := '(') (by decide) (by decide) cs
    obtain ⟨ls, b, inside, spells⟩ := list.derived (spare.of_suffix (List.suffix_cons '(' cs))
    rw [trimStart_trimStart]
    refine ⟨_, ?_, opened.append spells⟩
    rcases inside with list | ⟨rfl, rfl⟩
    · exact .list _ b list
    · exact .empty _ b

/-- The parameters, if there are any, and the parenthesis that closes them. -/
theorem ReadsParameters.derived {cs ts rest} : ReadsParameters cs ts rest → Allows comma cs →
    ∃ ls b, (IsParameters comma ls ts ∨ ls = [] ∧ ts = []) ∧
      Spells (ls ++ [⟨[')'], b⟩]) (trimStart cs) (trimStart rest)
  | .nil closed, _ => by
    have paren := Spells.mark (c := ')') (by decide) (by decide) rest
    rw [closed]
    exact ⟨[], _, .inr ⟨rfl, rfl⟩, paren⟩
  | .last _ first closed, spare => by
    obtain ⟨ls, only, spells⟩ := first.derived (spare.of_suffix (trimStart_suffix cs))
    rw [closed] at spells
    have paren := Spells.mark (c := ')') (by decide) (by decide) rest
    exact ⟨ls, _, .inl (.last only), spells.append paren⟩
  | @ReadsParameters.more _ _ _ next _ _ _ first joined others, spare => by
    obtain ⟨ls, first, spells⟩ := first.derived (spare.of_suffix (trimStart_suffix cs))
    rw [joined] at spells
    have suffix : ',' :: next <:+ cs := spells.suffix.trans (trimStart_suffix cs)
    have behind := Spells.mark (c := ',') (by decide) (by decide) next
    obtain ⟨ls', b, inside, spells'⟩ := others.derived
      (spare.of_suffix ((List.suffix_cons ',' next).trans suffix))
    have whole := spells.append (behind.append spells')
    rcases inside with others | ⟨rfl, rfl⟩
    · refine ⟨_, b, .inl (.more (next.takeWhile isBlank) first others), ?_⟩
      rw [List.append_assoc]
      exact whole
    · -- nothing is left behind the comma
      have closed : trimStart next = ')' :: (b ++ trimStart rest) := by
        simpa [written] using spells'.eq_append
      have spare' : hasSpareComma (',' :: next) = true := by
        rw [hasSpareComma, closed]
        rfl
      have allowed : comma := spare.of_suffix suffix spare'
      refine ⟨_, b, .inl (.spare (next.takeWhile isBlank) allowed first), ?_⟩
      rw [List.append_assoc]
      exact whole

end

/-! ## Whole texts -/

/-- **Every text that is read is derived with the tree it is read as**, where a comma may end
parameters. In the grammar without such commas it is derived so if and only if no comma of the
text has a closing parenthesis behind it. -/
theorem derives_of_parse {text : String} {t : TypeTree} (h : parse text = .ok t) :
    Derives True text t ∧ (Derives False text t ↔ hasSpareComma text.toList = false) := by
  obtain ⟨rest, read, blank⟩ := parse_eq_ok_iff.mp h
  have derives {comma : Prop} (spare : Allows comma text.toList) : Derives comma text t := by
    obtain ⟨ls, type, spells⟩ := read.derived (spare.of_suffix (trimStart_suffix text.toList))
    rw [blank] at spells
    exact ⟨ls, spells, type⟩
  refine ⟨derives fun _ => trivial, Derives.not_hasSpareComma, fun none => derives fun spare => ?_⟩
  exact Bool.eq_false_iff.mp none spare

theorem exists_of_isOk (text : String) (h : (parse text).isOk = true) :
    ∃ t, parse text = .ok t := by
  cases read : parse text with
  | error e =>
    rw [read] at h
    cases h
  | ok t => exact ⟨t, rfl⟩

theorem derives_of_parse_map :
    ∃ t, parse "const std :: map< unsigned  int, Foo<*, 3> >* const (char[4], void())" = .ok t ∧
      Derives False "const std :: map< unsigned  int, Foo<*, 3> >* const (char[4], void())" t := by
  obtain ⟨t, read⟩ := exists_of_isOk
    "const std :: map< unsigned  int, Foo<*, 3> >* const (char[4], void())" (by decide +kernel)
  exact ⟨t, read, (derives_of_parse read).2.mpr (by decide +kernel)⟩

/-- **A comma at the end of parameters is read over**, and the grammar derives nothing from a
text with one. -/
theorem reads_spare_comma :
    ∃ t, parse "int (int,)" = .ok t ∧ ∀ t', ¬ Derives False "int (int,)" t' := by
  obtain ⟨t, read⟩ := exists_of_isOk "int (int,)" (by decide +kernel)
  have spare : hasSpareComma "int (int,)".toList = true := by decide +kernel
  refine ⟨t, read, fun t' derived => ?_⟩
  exact Bool.eq_false_iff.mp derived.not_hasSpareComma spare

end WatchView.TypeTree
