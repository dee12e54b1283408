import BarrierStore.Text.Numeral

/-!
# Decimal numbers

Counters, addresses and numbers are written in decimal.

The module introduces `Decimal.digits n`, the shortest spelling of `n`, and `Decimal.parse? text`,
which accepts one or more ASCII digits after an optional plus sign, leading zeros included, as
long as the value fits a 64-bit word. Every word is read back from its spelling
(`parse?_digits`).
-/

namespace BarrierStore.Decimal

/-- The shortest decimal spelling of `n`. -/
def digits (n : Nat) : List Char :=
  Nat.toDigits 10 n

/-- The text without one leading plus sign. -/
def unsigned : (text : List Char) → List Char
  | '+' :: rest => rest
  | text => text

/-- The word spelled by `text`: an optional plus sign, then one or more digits. -/
def parse? (text : List Char) : Option UInt64 :=
  UInt64.ofNat <$> Numeral.parse? 10 UInt64.size (unsigned text)

theorem isDigit_of_mem_digits {n : Nat} {c : Char} (h : c ∈ digits n) : c.isDigit :=
  Nat.isDigit_of_mem_toDigits (by decide) (by decide) h

/-- A decimal digit is ASCII. -/
theorem lt_of_isDigit {c : Char} (h : c.isDigit) : c.toNat < 128 := by
  simp only [Char.isDigit, Bool.and_eq_true, decide_eq_true_eq] at h
  exact Nat.lt_of_le_of_lt (UInt32.le_iff_toNat_le.mp h.2) (by decide)

theorem digits_ne_nil (n : Nat) : digits n ≠ [] :=
  Nat.toDigits_ne_nil

/-- No spelling starts with a sign. -/
theorem unsigned_digits (n : Nat) : unsigned (digits n) = digits n := by
  unfold unsigned
  split
  · rename_i rest h
    have : '+' ∈ digits n := by simp [h]
    exact absurd (isDigit_of_mem_digits this) (by decide)
  · rfl

/-- Every word is read back from its spelling. -/
theorem parse?_digits (w : UInt64) : parse? (digits w.toNat) = some w := by
  rw [parse?, unsigned_digits, digits, Numeral.parse?_toDigits (by decide) (by decide) w.toNat_lt]
  exact congrArg some UInt64.ofNat_toNat

end BarrierStore.Decimal
