import WatchView.Proofs.Evaluation.Tokens
import WatchView.Proofs.TypeTree.Builtin
/-!
# Tokens and phrases

The tokens of a text are its words and numbers and every other character that is no
blank (`tokens`). A phrase is a row of tokens with the blanks behind each of them, and a
text starts with a phrase if the row is what is cut off it, token by token (`Spells`).
**The tokens of a phrase are then the first tokens of the text** (`Spells.tokens_eq`).
-/

namespace WatchView.TypeTree

open Text Substitution

/-! ## Tokens and rows of tokens -/

/-- The words and numbers of a text, and every other character that is no blank. -/
def tokens (cs : List Char) : List (List Char) := (runs cs).filter fun run => !run.all isBlank

/-- A text without its blanks. -/
def unspaced (cs : List Char) : List Char := cs.filter fun c => !isBlank c

/-- A token in front of the rest of a text: a word that does not go on there, or
another character that is no blank. -/
inductive IsToken : List Char → List Char → Prop
  | word {word rest} (nonempty : word ≠ []) (all : word.all isIdent = true)
      (ends : rest.head?.any isIdent = false) : IsToken word rest
  | mark {c rest} (solid : isBlank c = false) (other : isIdent c = false) : IsToken [c] rest

/-- A token and the blanks behind it. -/
structure Lexeme where
  token : List Char
  blanks : List Char

/-- The characters of a phrase. -/
def written (ls : List Lexeme) : List Char := ls.flatMap fun l => l.token ++ l.blanks

/-- The text of a phrase, without the blanks at its end. -/
def textOf (ls : List Lexeme) : String := String.ofList (trimEnd (written ls))

/-- **A text starts with the tokens of a phrase**, and goes on with `rest`. -/
inductive Spells : List Lexeme → List Char → List Char → Prop
  | nil {rest} : Spells [] rest rest
  | cons {token blanks cs ls rest} (first : IsToken token (blanks ++ cs))
      (blank : blanks.all isBlank = true) (more : Spells ls cs rest) :
      Spells (⟨token, blanks⟩ :: ls) (token ++ (blanks ++ cs)) rest

variable {c : Char} {b u v token cs mid rest : List Char} {ls ls' : List Lexeme}

/-! ## Tokens -/

theorem IsToken.ne_nil (h : IsToken token rest) : token ≠ [] := by
  cases h with
  | word nonempty _ _ => exact nonempty
  | mark => exact List.cons_ne_nil _ _

theorem IsToken.noBlank (h : IsToken token rest) : ∀ c ∈ token, isBlank c = false := by
  cases h with
  | word _ all _ =>
    exact fun c mem => not_isBlank_of_isIdent (List.all_eq_true.mp all c mem)
  | mark solid _ => exact List.forall_mem_singleton.mpr solid

/-- A text that starts with no blank starts with a token. -/
theorem exists_token (h : cs.head?.any isBlank = false) :
    cs = [] ∨ ∃ token rest, IsToken token rest ∧ cs = token ++ rest := by
  cases cs with
  | nil => exact .inl rfl
  | cons c cs =>
    by_cases ident : isIdent c = true
    · refine .inr ⟨(c :: cs).takeWhile isIdent, (c :: cs).dropWhile isIdent,
        .word ?_ List.all_takeWhile (head?_dropWhile_any isIdent _),
        List.takeWhile_append_dropWhile.symm⟩
      rw [List.takeWhile_cons_of_pos ident]
      exact List.cons_ne_nil _ _
    · exact .inr ⟨[c], cs, .mark h (Bool.eq_false_iff.mpr ident), rfl⟩

theorem tokens_cons_blank (blank : isBlank c = true) (cs : List Char) :
    tokens (c :: cs) = tokens cs := by
  rw [tokens, runs_cons (not_isIdent_of_isBlank blank), List.filter_cons_of_neg]
  · rfl
  · simp [blank]

theorem IsToken.tokens_append (h : IsToken token rest) :
    tokens (token ++ rest) = token :: tokens rest := by
  have runs : runs (token ++ rest) = token :: runs rest := by
    cases h with
    | word nonempty all ends => exact runs_append nonempty all ends
    | mark _ other => exact runs_cons other rest
  rw [tokens, runs, List.filter_cons_of_pos]
  · rfl
  · obtain ⟨c, token, rfl⟩ := List.exists_cons_of_ne_nil h.ne_nil
    simp [h.noBlank c List.mem_cons_self]

@[simp] theorem tokens_trimStart (cs : List Char) : tokens (trimStart cs) = tokens cs := by
  induction cs with
  | nil => rfl
  | cons c cs ih =>
    by_cases blank : isBlank c = true
    · rw [tokens_cons_blank blank, trimStart, List.dropWhile_cons_of_pos blank]
      exact ih
    · rw [trimStart, List.dropWhile_cons_of_neg blank]

theorem tokens_append_blank (blank : b.all isBlank = true) (cs : List Char) :
    tokens (b ++ cs) = tokens cs := by
  rw [← tokens_trimStart (b ++ cs), trimStart_append_of_blank blank, tokens_trimStart]

/-- A character that is a token ends the token in front of it. -/
theorem tokens_append_mark (solid : isBlank c = false) (other : isIdent c = false)
    (front rest : List Char) :
    tokens (front ++ c :: rest) = tokens front ++ [c] :: tokens rest := by
  have same : runs (front ++ c :: rest) =
      runs front ++ runs (c :: rest) := by
    refine List.splitBy_append fun d _ e head => ?_
    obtain rfl : c = e := Option.some.inj head
    rw [joins, other, Bool.and_false]
  have behind : tokens (c :: rest) = [c] :: tokens rest := (IsToken.mark solid other).tokens_append
  rw [tokens, same, List.filter_append, ← behind]
  rfl

theorem trimStart_cons (solid : isBlank c = false) (cs : List Char) :
    trimStart (c :: cs) = c :: cs :=
  trimStart_of_head solid

theorem unspaced_append (u v : List Char) : unspaced (u ++ v) = unspaced u ++ unspaced v :=
  List.filter_append u v

theorem unspaced_eq_self (solid : ∀ c ∈ cs, isBlank c = false) : unspaced cs = cs :=
  List.filter_eq_self.mpr fun c mem => by rw [solid c mem, Bool.not_false]

/-- The tokens one behind the other are the text without its blanks. -/
theorem flatten_tokens (cs : List Char) : (tokens cs).flatten = unspaced cs := by
  induction length : cs.length using Nat.strongRecOn generalizing cs with
  | ind n ih =>
    subst length
    cases blank : cs.head?.any isBlank with
    | true =>
      obtain ⟨c, rest, rfl⟩ := List.exists_cons_of_ne_nil (l := cs) (by rintro rfl; cases blank)
      rw [tokens_cons_blank blank, ih rest.length (by simp) rest rfl, unspaced, unspaced,
        List.filter_cons_of_neg (by simpa using blank)]
    | false =>
      obtain rfl | ⟨token, rest, first, rfl⟩ := exists_token blank
      · rfl
      · have shorter : rest.length < (token ++ rest).length := by
          have := List.length_pos_iff.mpr first.ne_nil
          rw [List.length_append]
          omega
        rw [first.tokens_append, List.flatten_cons, ih _ shorter rest rfl, unspaced_append,
          unspaced_eq_self first.noBlank]

/-! ## Phrases -/

namespace Spells

theorem append (h : Spells ls cs mid) (h' : Spells ls' mid rest) : Spells (ls ++ ls') cs rest := by
  induction h with
  | nil => exact h'
  | cons first blank _ ih => exact .cons first blank (ih h')

/-- A character that is a token, with no blanks behind it. -/
theorem mark_cons (solid : isBlank c = false) (other : isIdent c = false)
    (more : Spells ls cs rest) : Spells (⟨[c], []⟩ :: ls) (c :: cs) rest :=
  .cons (.mark solid other) rfl more

/-- A word with no blanks behind it. -/
theorem word_cons (word : List Char) (nonempty : word ≠ []) (all : word.all isIdent = true)
    (ends : cs.head?.any isIdent = false) (more : Spells ls cs rest) :
    Spells (⟨word, []⟩ :: ls) (word ++ cs) rest :=
  .cons (.word nonempty all ends) rfl more

/-- A word with one blank behind it. -/
theorem word_blank_cons (word : List Char) (nonempty : word ≠ []) (all : word.all isIdent = true)
    (blank : isBlank c = true) (more : Spells ls cs rest) :
    Spells (⟨word, [c]⟩ :: ls) (word ++ c :: cs) rest := by
  have blanks : [c].all isBlank = true := by rw [List.all_cons, blank, List.all_nil, Bool.and_true]
  exact .cons (.word nonempty all (not_isIdent_of_isBlank blank)) blanks more

/-- A token, and all the blanks behind it. -/
theorem single (first : IsToken token rest) :
    Spells [⟨token, rest.takeWhile isBlank⟩] (token ++ rest) (trimStart rest) := by
  have parts : rest.takeWhile isBlank ++ trimStart rest = rest := List.takeWhile_append_dropWhile
  have here : Spells [⟨token, rest.takeWhile isBlank⟩]
      (token ++ (rest.takeWhile isBlank ++ trimStart rest)) (trimStart rest) :=
    .cons (by rwa [parts]) List.all_takeWhile .nil
  rwa [parts] at here

/-- A character that is a token, and all the blanks behind it. -/
theorem mark (solid : isBlank c = false) (other : isIdent c = false) (rest : List Char) :
    Spells [⟨[c], rest.takeWhile isBlank⟩] (c :: rest) (trimStart rest) :=
  single (.mark solid other)

/-- The longest run of some of the characters of identifiers, and all the blanks behind it. -/
theorem run {p : Char → Bool} (imp : ∀ c, p c = true → isIdent c = true)
    (nonempty : cs.takeWhile p ≠ []) (ends : (cs.dropWhile p).head?.any isIdent = false) :
    Spells [⟨cs.takeWhile p, (cs.dropWhile p).takeWhile isBlank⟩] cs
      (trimStart (cs.dropWhile p)) := by
  have spells := single (.word nonempty (all_of_imp imp List.all_takeWhile) ends)
  rwa [List.takeWhile_append_dropWhile] at spells

theorem eq_append (h : Spells ls cs rest) : cs = written ls ++ rest := by
  induction h with
  | nil => rfl
  | cons _ _ _ ih =>
    rw [ih, written, written, List.flatMap_cons, List.append_assoc, List.append_assoc]

theorem suffix (h : Spells ls cs rest) : rest <:+ cs := ⟨written ls, h.eq_append.symm⟩

/-- The tokens of a phrase are the tokens its text starts with. -/
theorem tokens_eq (h : Spells ls cs rest) : tokens cs = ls.map Lexeme.token ++ tokens rest := by
  induction h with
  | nil => rfl
  | cons first blank _ ih =>
    rw [first.tokens_append, tokens_append_blank blank, ih, List.map_cons, List.cons_append]

end Spells

/-! ## The phrase of the vector extension -/

/-- The tokens of the vector extension. -/
def vectorTokens (digits : List Char) : List (List Char) :=
  ["unsigned".toList, "char".toList, "__attribute__".toList, ['('], ['('],
    "ext_vector_type".toList, ['('], digits, [')'], [')'], [')']]

section Vector

variable {blank blank' : Char} {digits : List Char}

theorem spells_vectorText (isBlank : isBlank blank = true) (isBlank' : Text.isBlank blank' = true)
    (nonempty : digits ≠ []) (all : digits.all Char.isDigit = true) (rest : List Char) :
    ∃ ls, ls.map Lexeme.token = vectorTokens digits ∧
      Spells ls (Primitive.vectorText blank blank' digits ++ rest) (trimStart rest) := by
  have opening {ls : List Lexeme} {cs : List Char} (more : Spells ls cs (trimStart rest)) :
      Spells (⟨['('], []⟩ :: ls) ('(' :: cs) (trimStart rest) :=
    more.mark_cons (by decide) (by decide)
  have closing {ls : List Lexeme} {cs : List Char} (more : Spells ls cs (trimStart rest)) :
      Spells (⟨[')'], []⟩ :: ls) (')' :: cs) (trimStart rest) :=
    more.mark_cons (by decide) (by decide)
  have identAll : digits.all isIdent = true := all_of_imp (fun _ => isIdent_of_isDigit) all
  have closed := closing (closing (.mark (c := ')') (by decide) (by decide) rest))
  have count := opening (closed.word_cons digits nonempty identAll rfl)
  have kind := opening (opening
    (count.word_cons "ext_vector_type".toList (by decide) (by decide) rfl))
  have attached := kind.word_cons "__attribute__".toList (by decide) (by decide) rfl
  have char := attached.word_blank_cons "char".toList (by decide) (by decide) isBlank'
  have unsigned := char.word_blank_cons "unsigned".toList (by decide) (by decide) isBlank
  have attr (r : List Char) : "__attribute__((ext_vector_type(".toList ++ r =
      "__attribute__".toList ++ '(' :: '(' :: ("ext_vector_type".toList ++ '(' :: r) := rfl
  rw [Primitive.vectorText_append, attr]
  exact ⟨_, rfl, unsigned⟩

theorem tokens_vectorText (isBlank : isBlank blank = true) (isBlank' : Text.isBlank blank' = true)
    (nonempty : digits ≠ []) (all : digits.all Char.isDigit = true) (rest : List Char) :
    tokens (Primitive.vectorText blank blank' digits ++ rest) =
      vectorTokens digits ++ tokens rest := by
  obtain ⟨ls, same, spells⟩ := spells_vectorText isBlank isBlank' nonempty all rest
  rw [spells.tokens_eq, same, tokens_trimStart]

end Vector

end WatchView.TypeTree
