import Mathlib.Data.List.TakeWhile
import WatchView.Text.Blank
import WatchView.Text.Cut
import WatchView.Text.Identifier
/-!
# Texts with something behind them

What a reader takes from the front of a text it takes also where more text
follows, if what follows cannot go on with it. And blanks at an end count for
nothing once the text is trimmed.
-/

namespace WatchView.Text

variable {p : Char → Bool} {c : Char} {cs ds b v z head rest : List Char}

/-! ## Characters -/

theorem isAlpha_iff : c.isAlpha = true ↔
    (65 ≤ c.toNat ∧ c.toNat ≤ 90) ∨ (97 ≤ c.toNat ∧ c.toNat ≤ 122) := by
  have upper : c.isUpper = true ↔ 65 ≤ c.toNat ∧ c.toNat ≤ 90 := decide_eq_true_iff
  have lower : c.isLower = true ↔ 97 ≤ c.toNat ∧ c.toNat ≤ 122 :=
    Bool.and_eq_true_iff.trans (and_congr decide_eq_true_iff decide_eq_true_iff)
  exact Bool.or_eq_true_iff.trans (or_congr upper lower)

theorem isDigit_iff : c.isDigit = true ↔ 48 ≤ c.toNat ∧ c.toNat ≤ 57 := Char.isDigit_iff_toNat

theorem toNat_of_isIdent (h : isIdent c = true) :
    c.toNat = 36 ∨ (48 ≤ c.toNat ∧ c.toNat ≤ 122) := by
  simp only [isIdent, Char.isAlphanum, Bool.or_eq_true, isAlpha_iff, isDigit_iff,
    beq_iff_eq] at h
  rcases h with (h | rfl) | rfl
  · omega
  · decide
  · decide

/-- No identifier goes on with a blank. -/
theorem not_isIdent_of_isBlank (h : isBlank c = true) : isIdent c = false := by
  rw [← Bool.not_eq_true]
  intro ident
  have := toNat_of_isIdent ident
  simp only [isBlank, Bool.or_eq_true, Bool.and_eq_true, decide_eq_true_eq, beq_iff_eq] at h
  omega

theorem not_isBlank_of_isIdent (h : isIdent c = true) : isBlank c = false :=
  Bool.eq_false_iff.mpr fun blank => Bool.eq_false_iff.mp (not_isIdent_of_isBlank blank) h

theorem isIdent_of_isWord (h : isWord c = true) : isIdent c = true := by
  unfold isIdent
  rw [show (c.isAlphanum || c == '_') = true from h, Bool.true_or]

theorem isIdent_of_isDigit (h : c.isDigit = true) : isIdent c = true := by
  unfold isIdent Char.isAlphanum
  rw [h, Bool.or_true, Bool.true_or, Bool.true_or]

theorem all_of_imp {q : Char → Bool} (imp : ∀ c, p c = true → q c = true)
    (h : cs.all p = true) : cs.all q = true :=
  List.all_eq_true.mpr fun c mem => imp c (List.all_eq_true.mp h c mem)

/-- A head with a property has what follows from it. -/
theorem head?_any_imp {q : Char → Bool} (imp : ∀ c, p c = true → q c = true)
    (h : cs.head?.any p = true) : cs.head?.any q = true := by
  cases cs with
  | nil => cases h
  | cons c cs => exact imp c h

/-- A head that lacks a property lacks what the property follows from. -/
theorem head?_any_of_imp {q : Char → Bool} (imp : ∀ c, q c = true → p c = true)
    (h : cs.head?.any p = false) : cs.head?.any q = false := by
  cases cs with
  | nil => rfl
  | cons c cs =>
    rw [List.head?_cons, Option.any_some] at h ⊢
    exact Bool.eq_false_iff.mpr fun has => Bool.eq_false_iff.mp h (imp c has)

theorem head?_append_any (h : v.head?.any p = true) (z : List Char) :
    (v ++ z).head?.any p = true := by
  cases v with
  | nil => cases h
  | cons c v => exact h

/-- What starts with a character of an identifier starts with no blank. -/
theorem noBlank_of_isIdent (imp : ∀ c, p c = true → isIdent c = true)
    (h : cs.head?.any p = true) : cs.head?.any isBlank = false := by
  cases cs with
  | nil => rfl
  | cons c cs => exact not_isBlank_of_isIdent (imp c h)

theorem head?_ne_of_isIdentStart (h : cs.head?.any isIdentStart = true)
    (other : isIdentStart c = false) : cs.head? ≠ some c := by
  intro head
  rw [head] at h
  exact Bool.eq_false_iff.mp other h

/-- No identifier starts with a digit. -/
theorem noDigit_of_isIdentStart (h : cs.head?.any isIdentStart = true) :
    cs.head?.any Char.isDigit = false := by
  cases cs with
  | nil => rfl
  | cons c cs =>
    refine Bool.eq_false_iff.mpr fun digit => ?_
    have start : isIdentStart c = true := h
    have digit := isDigit_iff.mp digit
    simp only [isIdentStart, Bool.or_eq_true, isAlpha_iff, beq_iff_eq] at start
    rcases start with (letter | rfl) | rfl
    · omega
    · exact absurd digit (by decide)
    · exact absurd digit (by decide)

/-! ## Taking and dropping -/

theorem takeWhile_ne_nil (h : cs.head?.any p = true) : cs.takeWhile p ≠ [] := by
  cases cs with
  | nil => cases h
  | cons c cs =>
    rw [List.takeWhile_cons_of_pos (by simpa using h)]
    exact List.cons_ne_nil _ _

/-- The part with a property does not grow by what lacks it. -/
theorem takeWhile_append_of_head (h : z.head?.any p = false) :
    (v ++ z).takeWhile p = v.takeWhile p := by
  have none : z.takeWhile p = [] := by
    cases z with
    | nil => rfl
    | cons c z => exact List.takeWhile_cons_of_neg (by simpa using h)
  rw [List.takeWhile_append, none, List.append_nil]
  split
  · rename_i all
    rw [(List.takeWhile_prefix p).eq_of_length all]
  · rfl

theorem dropWhile_append_of_head (h : z.head?.any p = false) :
    (v ++ z).dropWhile p = v.dropWhile p ++ z := by
  have none : z.dropWhile p = z := by
    cases z with
    | nil => rfl
    | cons c z => exact List.dropWhile_cons_of_neg (by simpa using h)
  rw [List.dropWhile_append, none]
  split
  · rename_i all
    rw [List.isEmpty_iff.mp all]
    rfl
  · rfl

theorem takeWhile_append_dropWhile_append (h : v.all p = true) (h' : z.head?.any p = false) :
    (v ++ z).takeWhile p = v ∧ (v ++ z).dropWhile p = z := by
  have all := List.all_eq_true.mp h
  constructor
  · rw [takeWhile_append_of_head h']
    exact List.takeWhile_eq_self_iff.mpr all
  · rw [List.dropWhile_append_of_pos all]
    cases z with
    | nil => rfl
    | cons c z => exact List.dropWhile_cons_of_neg (by simpa using h')

/-- What is dropped with a property leaves a head without it. -/
theorem head?_dropWhile_any (p : Char → Bool) (cs : List Char) :
    (cs.dropWhile p).head?.any p = false := by
  have h := List.head?_dropWhile_not p cs
  revert h
  cases (cs.dropWhile p).head? with
  | none => exact fun _ => rfl
  | some c => exact fun h => by simpa using h

/-! ## A known head -/

theorem dropHead?_eq_some_iff : dropHead? head cs = some rest ↔ cs = head ++ rest := by
  refine ⟨eq_append_of_dropHead?, ?_⟩
  rintro rfl
  induction head with
  | nil => rfl
  | cons c head ih => simpa [dropHead?] using ih

theorem dropHead?_append_self (head rest : List Char) :
    dropHead? head (head ++ rest) = some rest :=
  dropHead?_eq_some_iff.mpr rfl

/-! ## Trimming -/

theorem trimStart_suffix (cs : List Char) : trimStart cs <:+ cs := List.dropWhile_suffix isBlank

theorem head?_trimStart (cs : List Char) : (trimStart cs).head?.any isBlank = false :=
  head?_dropWhile_any isBlank cs

theorem trimStart_of_head (h : cs.head?.any isBlank = false) : trimStart cs = cs := by
  simpa [trimStart] using dropWhile_append_of_head (v := []) h

@[simp] theorem trimStart_trimStart (cs : List Char) : trimStart (trimStart cs) = trimStart cs :=
  trimStart_of_head (head?_trimStart cs)

theorem trimStart_eq_nil_iff : trimStart cs = [] ↔ cs.all isBlank = true := by
  rw [trimStart, List.dropWhile_eq_nil_iff, List.all_eq_true]

theorem trimStart_append_of_blank (h : b.all isBlank = true) (cs : List Char) :
    trimStart (b ++ cs) = trimStart cs :=
  List.dropWhile_append_of_pos (List.all_eq_true.mp h)

/-- Trimming the start of two texts trims the second only if the first is
blank. -/
theorem trimStart_append (v z : List Char) :
    trimStart (v ++ z) = if trimStart v = [] then trimStart z else trimStart v ++ z := by
  unfold trimStart
  rw [List.dropWhile_append]
  simp only [List.isEmpty_iff]

theorem trimEnd_append_of_blank (h : b.all isBlank = true) (cs : List Char) :
    trimEnd (cs ++ b) = trimEnd cs := by
  have blanks : ∀ c ∈ b.reverse, isBlank c = true := fun c mem =>
    List.all_eq_true.mp h c (List.mem_reverse.mp mem)
  rw [trimEnd, List.reverse_append, List.dropWhile_append_of_pos blanks]
  rfl

/-- A text that ends in no blank is left by trimming its end. -/
theorem trimEnd_of_getLast? (h : cs.getLast?.any isBlank = false) : trimEnd cs = cs := by
  rw [List.getLast?_eq_head?_reverse] at h
  have same := trimStart_of_head h
  rw [trimEnd, show cs.reverse.dropWhile isBlank = cs.reverse from same, List.reverse_reverse]

theorem getLast?_append_noBlank (h : v.getLast?.any isBlank = false)
    (h' : z.getLast?.any isBlank = false) : (v ++ z).getLast?.any isBlank = false := by
  rw [List.getLast?_append]
  cases last : z.getLast? with
  | none => exact h
  | some c =>
    rw [last] at h'
    exact h'

theorem getLast?_append_of_ne_nil (nonempty : z ≠ []) (h : z.getLast?.any isBlank = false)
    (v : List Char) : (v ++ z).getLast?.any isBlank = false := by
  rw [List.getLast?_append]
  cases last : z.getLast? with
  | none => exact absurd (List.getLast?_eq_none_iff.mp last) nonempty
  | some c =>
    rw [last] at h
    exact h

/-- What trimming the end takes away are blanks. -/
theorem exists_trimEnd_append (cs : List Char) :
    ∃ b : List Char, b.all isBlank = true ∧ cs = trimEnd cs ++ b := by
  refine ⟨(cs.reverse.takeWhile isBlank).reverse, ?_, ?_⟩
  · rw [List.all_reverse]
    exact List.all_takeWhile
  · rw [trimEnd, ← List.reverse_append, List.takeWhile_append_dropWhile, List.reverse_reverse]

/-- A text that starts with no blank starts the same once its end is trimmed. -/
theorem head?_trimEnd (h : cs.head?.any isBlank = false) : (trimEnd cs).head? = cs.head? := by
  obtain ⟨b, blank, same⟩ := exists_trimEnd_append cs
  cases front : trimEnd cs with
  | nil =>
    rw [front, List.nil_append] at same
    subst same
    cases cs with
    | nil => rfl
    | cons c cs =>
      have := List.all_eq_true.mp blank c List.mem_cons_self
      simp [this] at h
  | cons c front' =>
    rw [same, front]
    rfl

theorem getLast?_trimEnd (cs : List Char) : (trimEnd cs).getLast?.any isBlank = false := by
  rw [trimEnd, List.getLast?_reverse]
  exact head?_dropWhile_any isBlank cs.reverse

theorem head?_trim (cs : List Char) : (trim cs).head?.any isBlank = false := by
  rw [trim, head?_trimEnd (head?_trimStart cs)]
  exact head?_trimStart cs

theorem getLast?_trim (cs : List Char) : (trim cs).getLast?.any isBlank = false :=
  getLast?_trimEnd (trimStart cs)

theorem trim_of_noBlank (first : cs.head?.any isBlank = false)
    (last : cs.getLast?.any isBlank = false) : trim cs = cs := by
  rw [trim, trimStart_of_head first, trimEnd_of_getLast? last]

theorem trim_of_forall_noBlank (h : ∀ c ∈ cs, isBlank c = false) : trim cs = cs := by
  have ends (o : Option Char) (inside : ∀ c ∈ o, c ∈ cs) : o.any isBlank = false := by
    cases o with
    | none => rfl
    | some c => exact h c (inside c rfl)
  exact trim_of_noBlank (ends _ fun _ => List.mem_of_mem_head?)
    (ends _ fun _ => List.mem_of_mem_getLast?)

@[simp] theorem trim_trim (cs : List Char) : trim (trim cs) = trim cs :=
  trim_of_noBlank (head?_trim cs) (getLast?_trim cs)

/-- What trimming takes away are blanks at both ends. -/
theorem exists_trim_append (cs : List Char) :
    ∃ b z : List Char, b.all isBlank = true ∧ z.all isBlank = true ∧ cs = b ++ trim cs ++ z := by
  obtain ⟨z, blank, same⟩ := exists_trimEnd_append (trimStart cs)
  refine ⟨cs.takeWhile isBlank, z, List.all_takeWhile, blank, ?_⟩
  rw [List.append_assoc, trim, ← same, trimStart, List.takeWhile_append_dropWhile]

theorem trim_append_left (blank : b.all isBlank = true) (cs : List Char) :
    trim (b ++ cs) = trim cs := by
  rw [trim, trimStart_append_of_blank blank, trim]

theorem trim_append_right (blank : z.all isBlank = true) (cs : List Char) :
    trim (cs ++ z) = trim cs := by
  rw [trim, trimStart_append]
  split
  · rename_i none
    rw [trim, none, trimStart_eq_nil_iff.mpr blank]
  · exact trimEnd_append_of_blank blank _

theorem mem_of_mem_trim (h : c ∈ trim cs) : c ∈ cs := by
  obtain ⟨b, z, -, -, same⟩ := exists_trim_append cs
  rw [same]
  exact List.mem_append_left z (List.mem_append_right b h)

theorem mem_trim_of_mem (solid : isBlank c = false) (h : c ∈ cs) : c ∈ trim cs := by
  obtain ⟨b, z, first, last, same⟩ := exists_trim_append cs
  rw [same] at h
  rcases List.mem_append.mp h with h | h
  · rcases List.mem_append.mp h with h | h
    · exact absurd (List.all_eq_true.mp first c h) (Bool.eq_false_iff.mp solid)
    · exact h
  · exact absurd (List.all_eq_true.mp last c h) (Bool.eq_false_iff.mp solid)

/-- What ends in no blank and reaches at most over the blanks `z` starts with ends
before `z`. -/
theorem exists_append_of_trimStart_le (same : v ++ z = head ++ rest)
    (last : head.getLast?.any isBlank = false) (le : (trimStart z).length ≤ rest.length) :
    ∃ behind, v = head ++ behind ∧ rest = behind ++ z := by
  rcases List.append_eq_append_iff.mp same with ⟨more, rfl, rfl⟩ | ⟨behind, rfl, rfl⟩
  · have blank : more.all isBlank = true := by
      rw [← trimStart_eq_nil_iff]
      by_contra solid
      rw [trimStart_append, if_neg solid, List.length_append] at le
      have := List.length_pos_iff.mpr solid
      omega
    rcases List.eq_nil_or_concat more with rfl | ⟨more, c, rfl⟩
    · exact ⟨[], by simp, rfl⟩
    · have := List.all_eq_true.mp blank c (by simp)
      simp [this] at last
  · exact ⟨behind, rfl, rfl⟩

/-! ## Bytes -/

theorem utf8ByteSize_ofList (cs : List Char) :
    (String.ofList cs).utf8ByteSize = byteLength cs := by
  induction cs with
  | nil => rfl
  | cons c cs ih =>
    have split : String.ofList (c :: cs) = String.ofList [c] ++ String.ofList cs := by
      rw [← String.ofList_append, List.singleton_append]
    have one : (String.ofList [c]).utf8ByteSize = c.utf8Size := by simp
    rw [split, String.utf8ByteSize_append, one, ih, byteLength]

@[simp] theorem byteLength_toList (s : String) : byteLength s.toList = s.utf8ByteSize := by
  rw [← utf8ByteSize_ofList, String.ofList_toList]

theorem byteLength_trim_le (cs : List Char) : byteLength (trim cs) ≤ byteLength cs := by
  obtain ⟨b, z, -, -, same⟩ := exists_trim_append cs
  have total := congrArg byteLength same
  simp only [byteLength_append] at total
  omega

theorem byteLength_eq_zero_iff : byteLength cs = 0 ↔ cs = [] := by
  cases cs with
  | nil => exact iff_of_true rfl rfl
  | cons c cs =>
    have := c.utf8Size_pos
    simp only [byteLength, reduceCtorEq, iff_false]
    omega

/-! ## A known tail, and the last of a kind -/

theorem dropTail?_eq_some_iff : dropTail? head cs = some rest ↔ cs = rest ++ head := by
  rw [dropTail?, Option.map_eq_some_iff]
  constructor
  · rintro ⟨front, h, rfl⟩
    rw [← List.reverse_reverse cs, dropHead?_eq_some_iff.mp h]
    simp
  · rintro rfl
    exact ⟨rest.reverse, dropHead?_eq_some_iff.mpr (by simp), List.reverse_reverse rest⟩

theorem cutAfterLast?_eq_none_iff : cutAfterLast? c cs = none ↔ c ∉ cs := by
  induction cs with
  | nil => simp [cutAfterLast?]
  | cons d cs ih =>
    rw [cutAfterLast?, List.mem_cons, not_or, ← ih]
    cases cutAfterLast? c cs with
    | none => simp [eq_comm]
    | some p => simp

/-- A cut is where a character occurs for the last time. -/
theorem cutAfterLast?_eq_some_iff : cutAfterLast? c cs = some (v, z) ↔
    c ∉ z ∧ ∃ front, v = front ++ [c] ∧ cs = front ++ c :: z := by
  constructor
  · intro h
    induction cs generalizing v with
    | nil => cases h
    | cons d cs ih =>
      rw [cutAfterLast?] at h
      cases later : cutAfterLast? c cs with
      | none =>
        rw [later] at h
        dsimp only at h
        split at h
        · rename_i same
          obtain ⟨rfl, rfl⟩ := Prod.mk.inj (Option.some.inj h)
          exact ⟨cutAfterLast?_eq_none_iff.mp later, [], by rw [same]; rfl, by rw [same]; rfl⟩
        · cases h
      | some p =>
        rw [later] at h
        obtain ⟨rfl, rfl⟩ := Prod.mk.inj (Option.some.inj h)
        obtain ⟨last, front, same, rfl⟩ := ih later
        exact ⟨last, d :: front, by rw [same]; rfl, rfl⟩
  · rintro ⟨last, front, rfl, rfl⟩
    induction front with
    | nil => simp [cutAfterLast?, cutAfterLast?_eq_none_iff.mpr last]
    | cons d front ih => simp [cutAfterLast?, ih]

/-- Of two different separators, the one that occurs last is behind the other. -/
theorem mem_of_append_cons_eq {a b : Char} {front front' behind behind' : List Char}
    (same : front ++ a :: behind = front' ++ b :: behind') (other : a ≠ b) (last : a ∉ behind') :
    b ∈ behind := by
  rcases List.append_eq_append_iff.mp same with ⟨between, rfl, h⟩ | ⟨between, rfl, h⟩
  · cases between with
    | nil => exact absurd (List.cons.inj h).1 other
    | cons c between =>
      rw [(List.cons.inj h).2]
      simp
  · cases between with
    | nil => exact absurd (List.cons.inj h).1.symm other
    | cons c between =>
      rw [(List.cons.inj h).2] at last
      simp at last

/-! ## What was read and what is left -/

/-- `rest` is left of `cs` once a part of it was read that is not empty. -/
structure IsRest (rest cs : List Char) : Prop where
  suffix : rest <:+ cs
  shorter : rest.length < cs.length

namespace IsRest

variable {rest' cs' : List Char}

theorem of_suffix (h : rest' <:+ rest) (h' : IsRest rest cs) : IsRest rest' cs :=
  ⟨h.trans h'.suffix, Nat.lt_of_le_of_lt h.length_le h'.shorter⟩

theorem suffix_of (h : IsRest rest cs) (h' : cs <:+ cs') : IsRest rest cs' :=
  ⟨h.suffix.trans h', Nat.lt_of_lt_of_le h.shorter h'.length_le⟩

theorem trans (h : IsRest rest' rest) (h' : IsRest rest cs) : IsRest rest' cs :=
  of_suffix h.suffix h'

theorem cons (c : Char) (cs : List Char) : IsRest cs (c :: cs) :=
  ⟨List.suffix_cons c cs, by simp⟩

theorem append (nonempty : ds ≠ []) (rest : List Char) : IsRest rest (ds ++ rest) := by
  refine ⟨List.suffix_append ds rest, ?_⟩
  have := List.length_pos_iff.mpr nonempty
  rw [List.length_append]
  omega

/-- Dropping a part whose first character is to be dropped leaves a rest. -/
theorem dropWhile (h : cs.head?.any p = true) : IsRest (cs.dropWhile p) cs := by
  cases cs with
  | nil => cases h
  | cons c cs =>
    rw [List.dropWhile_cons_of_pos (by simpa using h)]
    exact of_suffix (List.dropWhile_suffix p) (cons c cs)

end IsRest

@[simp] theorem readPart_append_append (cs rest z : List Char) :
    readPart (cs ++ z) (rest ++ z) = readPart cs rest := by
  simp only [readPart, List.length_append, Nat.add_sub_add_right]
  exact List.take_append_of_le_length (Nat.sub_le _ _)

theorem readPart_eq_of_append (h : cs = ds ++ rest) : readPart cs rest = ds := by
  rw [h, readPart_append]

end WatchView.Text
