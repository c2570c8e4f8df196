import Mathlib.Data.Bool.AllAny
import Mathlib.Data.List.Induction
import Mathlib.Data.Nat.Digits.Defs
import WatchView.Proofs.Specifier
/-!
# Sizes in hexadecimal

A size in hexadecimal is `0x` with digits of base sixteen behind it, letters in either
case. Read as a number it is what its digits denote, whatever their case. Cut off the
front of a specifier it ends in front of its first letter in upper case: what starts there
is taken for the base format, and where it is the first digit there is no size
(`parts?_of_hex`).

So the two readings agree where they can. **A size in hexadecimal is cut off as a whole if
and only if there is no letter in upper case in it** (`literalSize?_hexadecimal`), and
`0x1F` is the size 1 shown in the format `F` (`parts?_upper_case`).
-/

namespace WatchView

namespace Specifier

open Text

/-! ## Digits of base sixteen -/

/-- The digits of base sixteen in order, the letters in lower case. -/
def hexDigits : List Char := "0123456789abcdef".toList

/-- A digit of base sixteen, in either case. -/
def IsHexadecimal (c : Char) : Prop := c.toLower ∈ hexDigits

instance : DecidablePred IsHexadecimal :=
  fun c => inferInstanceAs (Decidable (c.toLower ∈ hexDigits))

/-- The number that digits of base sixteen denote, the first counting most. -/
def hexValue (cs : List Char) : Nat :=
  Nat.ofDigits 16 (cs.reverse.map fun c => hexDigits.idxOf c.toLower)

variable {c : Char} {cs digits : List Char}

theorem toNat_lt_of_isHexadecimal (h : IsHexadecimal c) : c.toNat < 128 := by
  have lower : ∀ d ∈ hexDigits, d.toNat < 128 := List.all_iff_forall_prop.mp (by decide)
  by_cases upper : c.isUpper = true
  · have range : 65 ≤ c.toNat ∧ c.toNat ≤ 90 := of_decide_eq_true upper
    omega
  · have same : c.toLower = c := dif_neg fun range => upper (decide_eq_true range)
    exact lower c (same ▸ h)

/-- What the readers of a size make of each digit. -/
theorem isHexadecimal_facts (h : IsHexadecimal c) :
    digitValue c = hexDigits.idxOf c.toLower ∧ isHexDigit c = !c.isUpper ∧
      c.isAlphanum = true := by
  have ascii : ∀ n < 128, (Char.ofNat n).toLower ∈ hexDigits →
      digitValue (Char.ofNat n) = hexDigits.idxOf (Char.ofNat n).toLower ∧
        isHexDigit (Char.ofNat n) = !(Char.ofNat n).isUpper ∧
        (Char.ofNat n).isAlphanum = true := by decide +kernel
  have found := ascii c.toNat (toNat_lt_of_isHexadecimal h)
  rw [Char.ofNat_toNat] at found
  exact found h

theorem IsHexadecimal.digitValue_lt (h : IsHexadecimal c) : digitValue c < 16 := by
  rw [(isHexadecimal_facts h).1]
  exact List.idxOf_lt_length_of_mem h

theorem IsHexadecimal.noBlank (h : IsHexadecimal c) : isBlank c = false := by
  have ident : isIdent c = true := by
    rw [isIdent, (isHexadecimal_facts h).2.2, Bool.true_or, Bool.true_or]
  exact not_isBlank_of_isIdent ident

/-! ## The number -/

/-- A row of digits denotes its positional value. -/
theorem valueOfDigits_eq_ofDigits (base : Nat) (cs : List Char) :
    valueOfDigits base cs = Nat.ofDigits base (cs.reverse.map digitValue) := by
  induction cs using List.reverseRecOn with
  | nil => rfl
  | append_singleton cs c ih =>
    rw [valueOfDigits] at ih ⊢
    rw [List.foldl_append, List.foldl_cons, List.foldl_nil, ih, List.reverse_append,
      List.reverse_singleton, List.singleton_append, List.map_cons, Nat.ofDigits_cons,
      Nat.add_comm]

theorem valueOfDigits_eq_hexValue (hex : ∀ c ∈ digits, IsHexadecimal c) :
    valueOfDigits 16 digits = hexValue digits := by
  rw [valueOfDigits_eq_ofDigits, hexValue]
  congr 1
  exact List.map_congr_left fun c mem => (isHexadecimal_facts (hex c (List.mem_reverse.mp mem))).1

theorem literalSize?_of_hex (hex : ∀ c ∈ digits, IsHexadecimal c) (positive : 0 < hexValue digits)
    (bounded : hexValue digits < 2 ^ 32) :
    literalSize? ("0x".toList ++ digits) = some (hexValue digits) := by
  have nonempty : digits ≠ [] := by
    rintro rfl
    exact absurd positive (by decide)
  have small : digits.all (fun c => digitValue c < 16) = true :=
    List.all_eq_true.mpr fun c mem => decide_eq_true (hex c mem).digitValue_lt
  have noSign : numeral? 16 bound32 digits = digits? 16 bound32 digits := by
    unfold numeral?
    split
    · rename_i rest
      have plus : IsHexadecimal '+' := hex '+' List.mem_cons_self
      exact absurd plus (by decide)
    · rfl
  have number : digits? 16 bound32 digits = some (hexValue digits) := by
    rw [digits?, List.isEmpty_eq_false_iff.mpr nonempty, small, valueOfDigits_eq_hexValue hex,
      decide_eq_true (show hexValue digits < bound32 from bounded)]
    rfl
  rw [literalSize?, dropHead?_append_self]
  dsimp only
  rw [noSign, number, Option.filter_some, if_pos (decide_eq_true positive)]

/-! ## The cut -/

/-- **Where a size in hexadecimal ends**: in front of its first letter in upper case. -/
theorem parts?_of_hex (hex : ∀ c ∈ digits, IsHexadecimal c) :
    parts? (String.ofList ("0x".toList ++ digits)) =
      if digits.takeWhile isHexDigit = [] then none
      else some ⟨"0x".toList ++ digits.takeWhile isHexDigit, [], digits.dropWhile isHexDigit⟩ := by
  have solid : trim ("0x".toList ++ digits) = "0x".toList ++ digits :=
    trim_of_forall_noBlank (List.forall_mem_append.mpr
      ⟨List.all_iff_forall_prop.mp (by decide), fun c mem => (hex c mem).noBlank⟩)
  have cut : cutSize ("0x".toList ++ digits) =
      if digits.takeWhile isHexDigit = [] then ([], "0x".toList ++ digits)
      else ("0x".toList ++ digits.takeWhile isHexDigit, digits.dropWhile isHexDigit) := by
    simp [cutSize]
  rw [parts?, String.toList_ofList, solid, cut]
  by_cases none : digits.takeWhile isHexDigit = []
  · rw [if_pos none, if_pos none]
    rfl
  rw [if_neg none, if_neg none]
  dsimp only
  -- what is left starts with a letter in upper case
  have noDigit := head?_dropWhile_any isHexDigit digits
  have inside : ∀ c ∈ digits.dropWhile isHexDigit, IsHexadecimal c := fun c mem =>
    hex c ((List.dropWhile_suffix isHexDigit).mem mem)
  generalize digits.dropWhile isHexDigit = rest at noDigit inside
  cases rest with
  | nil => rfl
  | cons c rest =>
    obtain ⟨-, lower, -⟩ := isHexadecimal_facts (inside c List.mem_cons_self)
    have upper : c.isUpper = true := by simpa [lower] using noDigit
    have noMark : (c :: rest).head? ≠ some '!' := by
      rintro mark
      obtain rfl := Option.some.inj mark
      cases upper
    have alpha : c.isAlpha = true := Bool.or_eq_true_iff.mpr (.inl upper)
    have shape : isBaseShape (c :: rest) = true := by
      rw [isBaseShape, alpha, Bool.true_and, List.all_eq_true]
      exact fun d mem => (isHexadecimal_facts (inside d (List.mem_cons_of_mem c mem))).2.2
    rw [cutRaw_of_head noMark]
    dsimp only
    rw [if_pos shape]

/-- **A size in hexadecimal is the number its digits denote, and it is cut off as a whole if
and only if there is no letter in upper case in it.** -/
theorem literalSize?_hexadecimal (digits : List Char) (hex : ∀ c ∈ digits, IsHexadecimal c)
    (positive : 0 < hexValue digits) (bounded : hexValue digits < 2 ^ 32) :
    literalSize? ("0x".toList ++ digits) = some (hexValue digits) ∧
      (parts? (String.ofList ("0x".toList ++ digits)) = some ⟨"0x".toList ++ digits, [], []⟩ ↔
        ∀ c ∈ digits, c.isUpper = false) := by
  have lower {c : Char} (mem : c ∈ digits) : isHexDigit c = true ↔ c.isUpper = false := by
    rw [(isHexadecimal_facts (hex c mem)).2.1, Bool.not_eq_true']
  refine ⟨literalSize?_of_hex hex positive bounded, ?_⟩
  rw [parts?_of_hex hex]
  constructor
  · intro whole
    obtain ⟨-, whole⟩ := Option.ite_none_left_eq_some.mp whole
    have rest : digits.dropWhile isHexDigit = [] := (Parts.mk.inj (Option.some.inj whole)).2.2
    exact fun c mem => (lower mem).mp (List.dropWhile_eq_nil_iff.mp rest c mem)
  · intro noUpper
    have all : ∀ c ∈ digits, isHexDigit c = true := fun c mem => (lower mem).mpr (noUpper c mem)
    have nonempty : digits ≠ [] := by
      rintro rfl
      exact absurd positive (by decide)
    rw [List.takeWhile_eq_self_iff.mpr all, List.dropWhile_eq_nil_iff.mpr all, if_neg nonempty]

theorem literalSize?_deadBeef :
    (∀ c ∈ "DeadBeef".toList, IsHexadecimal c) ∧ 0 < hexValue "DeadBeef".toList ∧
      hexValue "DeadBeef".toList < 2 ^ 32 ∧
      literalSize? "0xDeadBeef".toList = some 3735928559 ∧
      (parts? "0xDeadBeef" = some ⟨"0xDeadBeef".toList, [], []⟩ ↔
        ∀ c ∈ "DeadBeef".toList, c.isUpper = false) := by
  have hex : ∀ c ∈ "DeadBeef".toList, IsHexadecimal c := List.all_iff_forall_prop.mp (by decide)
  have value : hexValue "DeadBeef".toList = 3735928559 := by decide
  have positive : 0 < hexValue "DeadBeef".toList := by rw [value]; decide
  have bounded : hexValue "DeadBeef".toList < 2 ^ 32 := by rw [value]; decide
  have both := literalSize?_hexadecimal _ hex positive bounded
  rw [value] at both
  exact ⟨hex, positive, bounded, both⟩

/-- **A letter in upper case ends the size**: of `0x1F` the number is 31, but the size that is
cut off is 1, and the format is `F`. -/
theorem parts?_upper_case :
    (∀ c ∈ "1F".toList, IsHexadecimal c) ∧ hexValue "1F".toList = 31 ∧
      literalSize? "0x1F".toList = some 31 ∧
      parts? "0x1F" = some ⟨"0x1".toList, [], ['F']⟩ ∧ literalSize? "0x1".toList = some 1 := by
  exact ⟨List.all_iff_forall_prop.mp (by decide), by decide, by decide, by decide, by decide⟩

end Specifier

end WatchView
