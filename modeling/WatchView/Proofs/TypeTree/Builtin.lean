import WatchView.Proofs.Text
import WatchView.TypeTree.Primitive
/-!
# Reading built-in names

A built-in name is read off the leading words of a text, or is the vector
extension (`vectorText`). Reading it takes at least one character, the first of
which is part of a word.
-/

namespace WatchView.Primitive

open Text

variable {n : Nat} {cs v z rest : List Char}

/-! ## Leading words -/

theorem leadingWords_of_head (h : cs.head?.any isWord = false) (n : Nat) :
    leadingWords n cs = [] := by
  cases n with
  | zero => rfl
  | succ n =>
    have none : cs.takeWhile isWord = [] := by
      simpa using takeWhile_append_of_head (v := []) h
    simp [leadingWords, none]

/-- A word in front of what is no part of it is the first of the leading words. -/
theorem leadingWords_cons {word : List Char} (nonempty : word ≠ []) (all : word.all isWord = true)
    (h : z.head?.any isWord = false) :
    leadingWords (n + 1) (word ++ z) = (String.ofList word, z) ::
      if z.head?.any isBlank then leadingWords n (trimStart z) else [] := by
  obtain ⟨taken, dropped⟩ := takeWhile_append_dropWhile_append all h
  simp only [leadingWords, taken, dropped, List.isEmpty_eq_false_iff.mpr nonempty]
  rfl

theorem not_isWord_of_isBlank {c : Char} (h : isBlank c = true) : isWord c = false :=
  Bool.eq_false_iff.mpr fun word =>
    Bool.eq_false_iff.mp (not_isIdent_of_isBlank h) (isIdent_of_isWord word)

/-- A word in front of a blank is followed by the leading words behind the blank. -/
theorem leadingWords_cons_blank {word : List Char} {c : Char} (nonempty : word ≠ [])
    (all : word.all isWord = true) (h : isBlank c = true) (behind : List Char) :
    leadingWords (n + 1) (word ++ c :: behind) =
      (String.ofList word, c :: behind) :: leadingWords n (trimStart behind) := by
  have noWord : (c :: behind).head?.any isWord = false := not_isWord_of_isBlank h
  rw [leadingWords_cons nonempty all noWord, List.head?_cons, Option.any_some, if_pos h, trimStart,
    List.dropWhile_cons_of_pos h]
  rfl

/-- Leading words have a rest of the text behind them. -/
theorem isRest_of_mem_leadingWords {word : String} (mem : (word, rest) ∈ leadingWords n cs) :
    IsRest rest cs := by
  induction n generalizing cs with
  | zero => cases mem
  | succ n ih =>
    simp only [leadingWords] at mem
    split at mem
    · cases mem
    · rename_i nonempty
      have behind : IsRest (cs.dropWhile isWord) cs := IsRest.dropWhile <| by
        cases cs with
        | nil => exact absurd rfl nonempty
        | cons c cs =>
          by_contra other
          rw [List.takeWhile_cons_of_neg (by simpa using other)] at nonempty
          exact nonempty rfl
      rcases List.mem_cons.mp mem with same | mem
      · cases same
        exact behind
      · split at mem
        · exact ((ih mem).suffix_of (trimStart_suffix _)).trans behind
        · cases mem

/-- What no word goes on with, be it over blanks, is behind every leading word. -/
theorem leadingWords_append (h : z.head?.any isWord = false)
    (h' : (trimStart z).head?.any isWord = false) (n : Nat) (v : List Char) :
    leadingWords n (v ++ z) = (leadingWords n v).map (Prod.map id (· ++ z)) := by
  induction n generalizing v with
  | zero => rfl
  | succ n ih =>
    simp only [leadingWords, takeWhile_append_of_head h, dropWhile_append_of_head h]
    split
    · rfl
    · simp only [List.map_cons, Prod.map_apply, id, List.cons.injEq, true_and]
      cases behind : v.dropWhile isWord with
      | nil =>
        rw [List.nil_append, leadingWords_of_head h']
        simp
      | cons c cs =>
        rw [List.cons_append, List.head?_cons, List.head?_cons, ← List.cons_append,
          trimStart_append]
        split
        · split
          · rename_i blank
            rw [blank, leadingWords_of_head h', leadingWords_of_head rfl]
            rfl
          · exact ih _
        · rfl

theorem mem_of_behindSpelling? {spelling : List (List String)} {words : List (String × List Char)}
    (h : behindSpelling? spelling words = some rest) : ∃ word, (word, rest) ∈ words := by
  fun_induction behindSpelling? spelling words with
  | case1 => cases h
  | case2 => cases h
  | case3 choices word behind words known =>
    cases h
    exact ⟨word, List.mem_cons_self⟩
  | case4 => cases h
  | case5 choices more word behind words _ known ih =>
    obtain ⟨word', mem⟩ := ih h
    exact ⟨word', List.mem_cons_of_mem _ mem⟩
  | case6 => cases h

/-- A spelling that agrees with a single word is made of one. -/
theorem behindSpelling?_singleton {spelling : List (List String)} {word : String}
    (h : behindSpelling? spelling [(word, v)] = some rest) :
    ∃ choices, spelling = [choices] ∧ word ∈ choices ∧ v = rest := by
  match spelling, h with
  | [choices], h =>
    simp only [behindSpelling?, Option.ite_none_right_eq_some, List.contains_iff_mem,
      Option.some.injEq] at h
    exact ⟨choices, rfl, h⟩
  | _ :: _ :: _, h =>
    simp only [behindSpelling?, Option.ite_none_right_eq_some] at h
    cases h.2

/-- A spelling looks at the words alone. -/
theorem behindSpelling?_map (f : List Char → List Char) (spelling : List (List String))
    (words : List (String × List Char)) :
    behindSpelling? spelling (words.map (Prod.map id f)) = (behindSpelling? spelling words).map f := by
  fun_induction behindSpelling? spelling words with
  | case1 => rfl
  | case2 => rfl
  | case3 _ _ _ _ known => simp only [List.map_cons, Prod.map_apply, id, behindSpelling?, known]; rfl
  | case4 _ _ _ _ known => simp only [List.map_cons, Prod.map_apply, id, behindSpelling?, known]; rfl
  | case5 _ more _ _ words _ known ih =>
    simp only [List.map_cons, Prod.map_apply, id, behindSpelling?, known, if_true]
    exact ih
  | case6 _ _ _ _ _ _ known => 
    simp only [List.map_cons, Prod.map_apply, id, behindSpelling?, known]; rfl

/-- What follows the words of the first spelling in the table that agrees. -/
def behindWords? (cs : List Char) : Option (List Char) :=
  spellings.findSome? fun spelling => behindSpelling? spelling (leadingWords 4 cs)

theorem isRest_of_behindWords? (h : behindWords? cs = some rest) : IsRest rest cs := by
  obtain ⟨spelling, -, agrees⟩ := List.exists_of_findSome?_eq_some h
  obtain ⟨word, mem⟩ := mem_of_behindSpelling? agrees
  exact isRest_of_mem_leadingWords mem

theorem behindWords?_append (h : z.head?.any isWord = false)
    (h' : (trimStart z).head?.any isWord = false) (v : List Char) :
    behindWords? (v ++ z) = (behindWords? v).map (· ++ z) := by
  simp only [behindWords?, leadingWords_append h h', behindSpelling?_map]
  exact List.map_findSome?.symm

/-! ## The vector extension -/

/-- The vector extension of `unsigned char`, with these blanks and digits. -/
def vectorText (blank blank' : Char) (digits : List Char) : List Char :=
  "unsigned".toList ++ blank :: ("char".toList ++ blank' ::
    ("__attribute__((ext_vector_type(".toList ++ (digits ++ ")))".toList)))

theorem vectorText_append (blank blank' : Char) (digits rest : List Char) :
    vectorText blank blank' digits ++ rest = "unsigned".toList ++ blank :: ("char".toList ++
      blank' :: ("__attribute__((ext_vector_type(".toList ++ (digits ++ (")))".toList ++ rest)))) := by
  unfold vectorText
  simp only [List.append_assoc, List.cons_append]

theorem dropBlank?_eq_some_iff : dropBlank? cs = some rest ↔
    ∃ blank, isBlank blank = true ∧ cs = blank :: rest := by
  cases cs with
  | nil => simp [dropBlank?]
  | cons c cs =>
    simp only [dropBlank?, Option.ite_none_right_eq_some, Option.some.injEq, List.cons.injEq]
    constructor
    · rintro ⟨isBlank, same⟩
      exact ⟨c, isBlank, rfl, same⟩
    · rintro ⟨_, isBlank, rfl, same⟩
      exact ⟨isBlank, same⟩

theorem exists_vectorText_of_behindVector? (h : behindVector? cs = some rest) :
    ∃ blank blank' digits, isBlank blank = true ∧ isBlank blank' = true ∧ digits ≠ [] ∧
      digits.all Char.isDigit = true ∧ cs = vectorText blank blank' digits ++ rest := by
  simp only [behindVector?, Option.bind_eq_bind, Option.bind_eq_some_iff, dropHead?_eq_some_iff,
    dropBlank?_eq_some_iff] at h
  obtain ⟨_, rfl, _, ⟨blank, isBlank, rfl⟩, _, rfl, _, ⟨blank', isBlank', rfl⟩, ds, rfl, h⟩ := h
  rw [Option.ite_none_right_eq_some, dropHead?_eq_some_iff] at h
  obtain ⟨digit, tail⟩ := h
  have parts : ds.takeWhile Char.isDigit ++ (")))".toList ++ rest) = ds := by
    rw [← tail, List.takeWhile_append_dropWhile]
  refine ⟨blank, blank', ds.takeWhile Char.isDigit, isBlank, isBlank', takeWhile_ne_nil digit,
    List.all_takeWhile, ?_⟩
  rw [vectorText_append, parts]

theorem behindVector?_vectorText {blank blank' : Char} {digits : List Char}
    (isBlank : isBlank blank = true) (isBlank' : Text.isBlank blank' = true) (nonempty : digits ≠ [])
    (all : digits.all Char.isDigit = true) (rest : List Char) :
    behindVector? (vectorText blank blank' digits ++ rest) = some rest := by
  obtain ⟨-, dropped⟩ := takeWhile_append_dropWhile_append (z := ")))".toList ++ rest) all (by simp)
  have digit : (digits ++ (")))".toList ++ rest)).head?.any Char.isDigit = true := by
    cases digits with
    | nil => exact absurd rfl nonempty
    | cons d ds => exact List.all_eq_true.mp all d List.mem_cons_self
  simp only [behindVector?, vectorText_append, dropHead?_append_self, dropBlank?, isBlank,
    isBlank', if_true, Option.bind_eq_bind, Option.bind_some, digit, dropped]

/-- What follows the vector extension in a text follows it where more text follows. -/
theorem behindVector?_append (h : behindVector? v = some rest) (z : List Char) :
    behindVector? (v ++ z) = some (rest ++ z) := by
  obtain ⟨blank, blank', digits, isBlank, isBlank', nonempty, all, rfl⟩ :=
    exists_vectorText_of_behindVector? h
  rw [List.append_assoc]
  exact behindVector?_vectorText isBlank isBlank' nonempty all _

theorem getLast?_vectorText (blank blank' : Char) (digits : List Char) :
    (vectorText blank blank' digits).getLast? = some ')' := by
  unfold vectorText
  simp [List.getLast?_cons]

theorem behindVector?_eq_none_of_append (h : behindVector? (v ++ z) = none) :
    behindVector? v = none := by
  cases vector : behindVector? v with
  | none => rfl
  | some rest =>
    rw [behindVector?_append vector] at h
    cases h

/-- The vector extension ends in no blank. Where what follows it starts behind
the blanks of `z` at the latest, it ends before `z`. -/
theorem behindVector?_of_append (h : behindVector? (v ++ z) = some rest)
    (le : (trimStart z).length ≤ rest.length) :
    ∃ behind, behindVector? v = some behind ∧ rest = behind ++ z := by
  obtain ⟨blank, blank', digits, isBlank, isBlank', nonempty, all, same⟩ :=
    exists_vectorText_of_behindVector? h
  obtain ⟨behind, rfl, rfl⟩ := exists_append_of_trimStart_le same
    (by rw [getLast?_vectorText]; decide) le
  exact ⟨behind, behindVector?_vectorText isBlank isBlank' nonempty all behind, rfl⟩

/-! ## The name that is read -/

theorem behind?_eq (cs : List Char) : behind? cs = (behindVector? cs).or (behindWords? cs) := rfl

theorem read?_eq_some_iff {spelling : String} : read? cs = some (spelling, rest) ↔
    behind? cs = some rest ∧ rest.head? ≠ some '$' ∧ spelling = String.ofList (readPart cs rest) := by
  simp only [read?, Option.bind_eq_bind, Option.bind_eq_some_iff, Option.ite_none_left_eq_some,
    Option.some.injEq, Prod.mk.injEq]
  constructor
  · rintro ⟨_, behind, plain, rfl, rfl⟩
    exact ⟨behind, plain, rfl⟩
  · rintro ⟨behind, plain, rfl⟩
    exact ⟨rest, behind, plain, rfl, rfl⟩

theorem read?_eq_none_iff :
    read? cs = none ↔ ∀ rest, behind? cs = some rest → rest.head? = some '$' := by
  simp only [read?, Option.bind_eq_bind, Option.bind_eq_none_iff, ite_eq_left_iff, reduceCtorEq,
    imp_false, not_not]

/-- A built-in name is one or more characters of the text. -/
theorem isRest_of_read? {spelling : String} (h : read? cs = some (spelling, rest)) :
    IsRest rest cs := by
  obtain ⟨behind, -, -⟩ := read?_eq_some_iff.mp h
  rw [behind?_eq, Option.or_eq_some_iff] at behind
  rcases behind with vector | ⟨-, words⟩
  · obtain ⟨blank, blank', digits, -, -, -, -, rfl⟩ := exists_vectorText_of_behindVector? vector
    refine IsRest.append (fun none => ?_) rest
    have last := getLast?_vectorText blank blank' digits
    rw [none] at last
    cases last
  · exact isRest_of_behindWords? words

/-- What cannot go on an identifier cannot go on a word. -/
theorem noWord (h : cs.head?.any isIdent = false) : cs.head?.any isWord = false :=
  head?_any_of_imp (fun _ => isIdent_of_isWord) h

section Behind

variable {spelling : String} (h : z.head?.any isIdent = false)
  (h' : (trimStart z).head?.any isIdent = false)

include h h'

/-- A built-in name that is read where a text ends in `z` is read without `z`, if
what follows it starts behind the blanks of `z` at the latest. -/
theorem read?_of_append (read : read? (v ++ z) = some (spelling, rest))
    (le : (trimStart z).length ≤ rest.length) :
    ∃ behind, read? v = some (spelling, behind) ∧ rest = behind ++ z := by
  obtain ⟨found, plain, rfl⟩ := read?_eq_some_iff.mp read
  have inside : ∃ behind, behind? v = some behind ∧ rest = behind ++ z := by
    rw [behind?_eq, Option.or_eq_some_iff] at found
    rcases found with vector | ⟨noVector, words⟩
    · obtain ⟨behind, found, rfl⟩ := behindVector?_of_append vector le
      exact ⟨behind, by rw [behind?_eq, found, Option.some_or], rfl⟩
    · rw [behindWords?_append (noWord h) (noWord h'),
        Option.map_eq_some_iff] at words
      obtain ⟨behind, words, rfl⟩ := words
      have noVector := behindVector?_eq_none_of_append noVector
      exact ⟨behind, by rw [behind?_eq, noVector, Option.none_or, words], rfl⟩
  obtain ⟨behind, foundInside, rfl⟩ := inside
  refine ⟨behind, read?_eq_some_iff.mpr ⟨foundInside, fun dollar => plain ?_, ?_⟩, rfl⟩
  · rw [List.head?_append, dollar, Option.some_or]
  · rw [readPart_append_append]

/-- Where no built-in name is read, none is read without what the text ends in,
the vector extension aside. -/
theorem read?_eq_none_of_append (read : read? (v ++ z) = none)
    (noVector : behindVector? (v ++ z) = none) : read? v = none := by
  rw [read?_eq_none_iff] at read ⊢
  intro rest found
  rw [behind?_eq, behindVector?_eq_none_of_append noVector, Option.none_or] at found
  have words : behindWords? (v ++ z) = some (rest ++ z) := by
    rw [behindWords?_append (noWord h) (noWord h'), found, Option.map_some]
  have dollar := read (rest ++ z) (by rw [behind?_eq, noVector, Option.none_or, words])
  cases rest with
  | nil =>
    rw [List.nil_append] at dollar
    rw [dollar] at h
    cases h
  | cons c rest => exact dollar

end Behind

/-! ## The names of the table -/

/-- The rows of words a spelling admits. -/
def rows : List (List String) → List (List String)
  | [] => [[]]
  | choices :: more => choices.flatMap fun word => (rows more).map (word :: ·)

/-- The rows of words that spell a built-in type. -/
def table : List (List String) := spellings.flatMap rows

/-- Words with single spaces between them. -/
def spaced : List String → List Char
  | [] => []
  | [word] => word.toList
  | word :: words => word.toList ++ ' ' :: spaced words

/-- The first spelling that agrees with a row of the table takes the whole row. -/
theorem behindWords?_spaced : ∀ words ∈ table, behindWords? (spaced words) = some [] := by
  decide +kernel

theorem leadingWords_spaced :
    ∀ words ∈ table, (leadingWords 4 (spaced words)).map Prod.fst = words := by
  decide +kernel

theorem takeWhile_spaced :
    ∀ words ∈ table, (spaced words).takeWhile isIdent ≠ "const".toList := by
  decide +kernel

theorem head?_spaced : ∀ words ∈ table, (spaced words).head?.any isIdentStart = true := by
  decide +kernel

theorem getLast?_spaced : ∀ words ∈ table, (spaced words).getLast?.any isBlank = false := by
  decide +kernel

/-- The leading words of the vector extension. -/
theorem leadingWords_vectorText {blank blank' : Char} (isBlank : isBlank blank = true)
    (isBlank' : Text.isBlank blank' = true) (digits rest : List Char) :
    (leadingWords 4 (vectorText blank blank' digits ++ rest)).map Prod.fst =
      ["unsigned", "char", "__attribute__"] := by
  have char (cs : List Char) : trimStart ("char".toList ++ cs) = "char".toList ++ cs :=
    trimStart_of_head rfl
  have attr (cs : List Char) : trimStart ("__attribute__((ext_vector_type(".toList ++ cs) =
      "__attribute__".toList ++ '(' :: ("(ext_vector_type(".toList ++ cs) :=
    trimStart_of_head rfl
  rw [vectorText_append, leadingWords_cons_blank (by decide) (by decide) isBlank, char,
    leadingWords_cons_blank (by decide) (by decide) isBlank', attr,
    leadingWords_cons (by decide) (by decide) rfl]
  rfl

/-- The leading words of a text are those in front of what no word goes on with. -/
theorem leadingWords_append_fst (h : z.head?.any isWord = false)
    (h' : (trimStart z).head?.any isWord = false) (n : Nat) (v : List Char) :
    (leadingWords n (v ++ z)).map Prod.fst = (leadingWords n v).map Prod.fst := by
  rw [leadingWords_append h h', List.map_map]
  rfl

theorem eq_dollar_of_isIdent {c : Char} (ident : isIdent c = true) (noWord : isWord c = false) :
    c = '$' := by
  rw [isIdent, show (c.isAlphanum || c == '_') = false from noWord, Bool.false_or] at ident
  exact beq_iff_eq.mp ident

/-- An identifier has one leading word, or none where it starts with a dollar sign. -/
theorem leadingWords_identifier {name : List Char} (n : Nat) (all : name.all isIdent = true) :
    leadingWords (n + 1) name = [] ∨ leadingWords (n + 1) name =
      [(String.ofList (name.takeWhile isWord), name.dropWhile isWord)] := by
  have noBlank : (name.dropWhile isWord).head?.any isBlank = false := by
    cases behind : name.dropWhile isWord with
    | nil => rfl
    | cons c cs =>
      have mem : c ∈ name := (List.dropWhile_suffix isWord).mem (behind ▸ List.mem_cons_self)
      exact not_isBlank_of_isIdent (List.all_eq_true.mp all c mem)
  simp only [leadingWords, noBlank]
  split
  · exact .inl rfl
  · exact .inr rfl

section Punctuated

variable (h : z.head?.any isIdent = false) (h' : z.head?.any isBlank = false)

include h h'

/-- A row of the table is read where neither a word nor a blank follows. -/
theorem read?_spaced {words : List String} (known : words ∈ table) :
    read? (spaced words ++ z) = some (String.ofList (spaced words), z) := by
  have start : trimStart z = z := trimStart_of_head h'
  have noVector : behindVector? (spaced words ++ z) = none := by
    cases vector : behindVector? (spaced words ++ z) with
    | none => rfl
    | some rest =>
      exfalso
      obtain ⟨_, _, digits, isBlank, isBlank', -, -, same⟩ :=
        exists_vectorText_of_behindVector? vector
      have leading := leadingWords_append_fst (noWord h) (by rw [start]; exact noWord h) 4
        (spaced words)
      rw [leadingWords_spaced words known, same, leadingWords_vectorText isBlank isBlank'] at leading
      subst leading
      revert known
      decide +kernel
  have words := behindWords?_append (noWord h) (by rw [start]; exact noWord h) (spaced words)
  rw [behindWords?_spaced _ known, Option.map_some, List.nil_append] at words
  refine read?_eq_some_iff.mpr ⟨?_, ?_, by rw [readPart_append]⟩
  · rw [behind?_eq, noVector, Option.none_or, words]
  · intro dollar
    rw [dollar] at h
    cases h

/-- No built-in name is read off an identifier that is not one. -/
theorem read?_identifier {name : List Char} (all : name.all isIdent = true)
    (other : [String.ofList name] ∉ table) : read? (name ++ z) = none := by
  have start : trimStart z = z := trimStart_of_head h'
  -- the spelling of a vector extension begins with two words, and an identifier is one at most
  have noVector : behindVector? (name ++ z) = none := by
    cases vector : behindVector? (name ++ z) with
    | none => rfl
    | some rest =>
      exfalso
      obtain ⟨_, _, digits, isBlank, isBlank', -, -, same⟩ :=
        exists_vectorText_of_behindVector? vector
      have leading := leadingWords_append_fst (noWord h) (by rw [start]; exact noWord h) 4 name
      rw [same, leadingWords_vectorText isBlank isBlank'] at leading
      rcases leadingWords_identifier 3 all with none | one
      · rw [none] at leading
        cases leading
      · rw [one] at leading
        exact absurd (congrArg List.length leading) (by simp)
  rw [read?_eq_none_iff]
  intro rest found
  rw [behind?_eq, noVector, Option.none_or,
    behindWords?_append (noWord h) (by rw [start]; exact noWord h), Option.map_eq_some_iff] at found
  obtain ⟨behind, found, rfl⟩ := found
  obtain ⟨spelling, known, agrees⟩ := List.exists_of_findSome?_eq_some found
  -- so a built-in name could only be a single word, and this one is none of the table
  rcases leadingWords_identifier 3 all with none | one
  · rw [none] at agrees
    cases spelling <;> cases agrees
  · rw [one] at agrees
    obtain ⟨choices, rfl, word, rfl⟩ := behindSpelling?_singleton agrees
    have parts := List.takeWhile_append_dropWhile (p := isWord) (l := name)
    cases behind : name.dropWhile isWord with
    | nil =>
      rw [behind, List.append_nil] at parts
      rw [parts] at word
      refine absurd (List.mem_flatMap.mpr ⟨_, known, ?_⟩) other
      exact List.mem_flatMap.mpr ⟨_, word, by simp [rows]⟩
    | cons c cs =>
      have mem : c ∈ name := (List.dropWhile_suffix isWord).mem (behind ▸ List.mem_cons_self)
      have noWord := head?_dropWhile_any isWord name
      rw [behind] at noWord
      rw [eq_dollar_of_isIdent (List.all_eq_true.mp all c mem) noWord]
      rfl

end Punctuated

end WatchView.Primitive
