/-!
# Numerals

An unsigned numeral is an optional plus sign and one or more digits of the
base, and denotes a number below a bound. Anything else, a blank, a minus
sign, a value out of bounds, is no numeral.
-/

namespace WatchView

namespace Text

/-- The value of a digit; letters of either case are the digits from ten. -/
def digitValue (c : Char) : Nat :=
  if '0' ≤ c ∧ c ≤ '9' then c.toNat - '0'.toNat
  else if 'a' ≤ c ∧ c ≤ 'z' then c.toNat - 'a'.toNat + 10
  else if 'A' ≤ c ∧ c ≤ 'Z' then c.toNat - 'A'.toNat + 10
  else 36

/-- The number a row of digits denotes, the first digit counting most. -/
def valueOfDigits (base : Nat) (cs : List Char) : Nat :=
  cs.foldl (fun n c => base * n + digitValue c) 0

/-- The number denoted by one or more digits of `base`, if below `bound`. -/
def digits? (base bound : Nat) (cs : List Char) : Option Nat :=
  if !cs.isEmpty && cs.all (fun c => digitValue c < base) && valueOfDigits base cs < bound then
    some (valueOfDigits base cs)
  else none

/-- The number denoted by an optional plus sign and digits of `base`, if
below `bound`. -/
def numeral? (base bound : Nat) : List Char → Option Nat
  | '+' :: cs => digits? base bound cs
  | cs => digits? base bound cs

/-- A value of digits is below the bound asked for. -/
theorem digits?_lt {base bound n : Nat} {cs : List Char} (h : digits? base bound cs = some n) :
    n < bound := by
  unfold digits? at h
  split at h
  · rename_i hc
    simp only [Bool.and_eq_true, decide_eq_true_eq] at hc
    cases h
    exact hc.2
  · cases h

/-- A numeral is below the bound asked for. -/
theorem numeral?_lt {base bound n : Nat} {cs : List Char} (h : numeral? base bound cs = some n) :
    n < bound := by
  unfold numeral? at h
  split at h <;> exact digits?_lt h

/-- One past the largest number of 32 bits, 2³². -/
def bound32 : Nat := 4294967296

/-- One past the largest number of 63 bits, 2⁶³. -/
def bound63 : Nat := 9223372036854775808

/-- One past the largest number of 64 bits, 2⁶⁴. -/
def bound64 : Nat := 18446744073709551616

end Text

end WatchView
