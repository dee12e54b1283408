import BarrierStore.Text.Decimal
import Mathlib.Tactic.SplitIfs

/-!
# What digits spell

Byte strings are spelled in hexadecimal and numbers in decimal. A reader accepts every spelling, not
only the one that is written: digits of either case, leading zeros, and a plus sign.

The module introduces:

* `Hex.HasValue c n` — `c` is the digit of `n`, in either case;
* `Hex.Spells text bytes` — `text` is two such digits for each byte, high half first;
* `Decimal.Spells text n` — `text` is one or more decimal digits with the value `n`, perhaps behind a
  plus sign.

Main statements: `Hex.parse?_eq_some_iff` and `Decimal.parse?_eq_some_iff`, which say that exactly the
spellings are read, and as what they spell.
-/

namespace BarrierStore

namespace Hex

/-- The character is the digit of a number below 16, in either case. -/
def HasValue (c : Char) (n : Nat) : Prop :=
  n < 16 ∧ (c = digit n ∨ c = (digit n).toUpper)

/-- The text is two digits for each byte, high half first. -/
inductive Spells : (text : List Char) → (bytes : Bytes) → Prop
  /-- No digit for no byte. -/
  | nil : Spells [] []
  /-- The digits of a byte, and those of the bytes behind it. -/
  | cons {high low : Char} {text : List Char} {b : UInt8} {bytes : Bytes} :
      HasValue high (b.toNat / 16) → HasValue low (b.toNat % 16) → Spells text bytes →
      Spells (high :: low :: text) (b :: bytes)

/-! ## One digit -/

theorem toNat_le_of_le {c d : Char} (h : c ≤ d) : c.toNat ≤ d.toNat :=
  UInt32.le_iff_toNat_le.mp h

/-- In a run of characters with consecutive numbers each stands at its distance from the first. -/
theorem exists_of_run {length : Nat} {run : Fin length → Char} {first last c : Char}
    (hrun : ∀ i, (run i).toNat = first.toNat + i) (hlast : last.toNat < first.toNat + length)
    (hc : first ≤ c ∧ c ≤ last) : ∃ i : Fin length, c = run i ∧ c.toNat - first.toNat = i := by
  have hlow := toNat_le_of_le hc.1
  have hhigh := toNat_le_of_le hc.2
  refine ⟨⟨c.toNat - first.toNat, by omega⟩, Char.toNat_inj.mp ?_, rfl⟩
  rw [hrun]
  exact (Nat.add_sub_of_le hlow).symm

/-- A digit is read as its value, and nothing else is read as a digit. -/
theorem value?_eq_some_iff {c : Char} {n : Nat} : value? c = some n ↔ HasValue c n := by
  constructor
  · intro h
    -- the digits make three runs
    have hdecimal : ∀ i : Fin 10, (digit i).toNat = '0'.toNat + i := by decide
    have hlower : ∀ i : Fin 6, (digit (i + 10)).toNat = 'a'.toNat + i := by decide
    have hupper : ∀ i : Fin 6, (digit (i + 10)).toUpper.toNat = 'A'.toNat + i := by decide
    unfold value? at h
    split_ifs at h with hrange hrange hrange <;> obtain rfl := Option.some.inj h
    · obtain ⟨i, rfl, hi⟩ := exists_of_run hdecimal (by decide) hrange
      rw [hi]
      exact ⟨by omega, .inl rfl⟩
    · obtain ⟨i, rfl, hi⟩ := exists_of_run hlower (by decide) hrange
      rw [hi]
      exact ⟨by omega, .inl rfl⟩
    · obtain ⟨i, rfl, hi⟩ := exists_of_run hupper (by decide) hrange
      rw [hi]
      exact ⟨by omega, .inr rfl⟩
  · rintro ⟨hn, rfl | rfl⟩
    · exact value?_digit hn
    · exact (by decide : ∀ n : Fin 16, value? (digit n).toUpper = some n.val) ⟨n, hn⟩

/-- A digit is ASCII and no space. -/
theorem HasValue.lt_and_ne {c : Char} {n : Nat} (h : HasValue c n) : c.toNat < 128 ∧ c ≠ ' ' := by
  have hlower : ∀ n : Fin 16, (digit n).toNat < 128 ∧ digit n ≠ ' ' := by decide
  have hupper : ∀ n : Fin 16, (digit n).toUpper.toNat < 128 ∧ (digit n).toUpper ≠ ' ' := by decide
  obtain ⟨hn, rfl | rfl⟩ := h
  · exact hlower ⟨n, hn⟩
  · exact hupper ⟨n, hn⟩

/-! ## Byte strings -/

/-- A spelling is ASCII and holds no space. -/
theorem Spells.lt_and_ne {text : List Char} {bytes : Bytes} (h : Spells text bytes) :
    ∀ c ∈ text, c.toNat < 128 ∧ c ≠ ' ' := by
  induction h with
  | nil => exact fun c hc => absurd hc List.not_mem_nil
  | cons hhigh hlow _ ih =>
    intro c hc
    rcases List.mem_cons.mp hc with rfl | hc
    · exact hhigh.lt_and_ne
    rcases List.mem_cons.mp hc with rfl | hc
    · exact hlow.lt_and_ne
    · exact ih c hc

/-- Two values below 16 are the halves of a byte. -/
theorem halves_ofNat {high low : Nat} (hhigh : high < 16) (hlow : low < 16) :
    (UInt8.ofNat (16 * high + low)).toNat / 16 = high ∧
      (UInt8.ofNat (16 * high + low)).toNat % 16 = low := by
  rw [UInt8.toNat_ofNat']
  omega

/-- A text is read as bytes exactly if it spells them. -/
theorem parse?_eq_some_iff {text : List Char} {bytes : Bytes} :
    parse? text = some bytes ↔ Spells text bytes := by
  constructor
  · intro h
    -- along the reader, which takes two digits at a time
    fun_induction parse? text generalizing bytes with
    | case1 =>
      cases h
      exact .nil
    | case2 => cases h
    | case3 high low rest ih =>
      simp only [Option.bind_eq_bind, Option.bind_eq_some_iff] at h
      obtain ⟨upper, hupper, lower, hlower, behind, hbehind, hbytes⟩ := h
      obtain rfl := Option.some.inj hbytes
      rw [value?_eq_some_iff] at hupper hlower
      obtain ⟨hdiv, hmod⟩ := halves_ofNat hupper.1 hlower.1
      exact .cons (hdiv.symm ▸ hupper) (hmod.symm ▸ hlower) (ih hbehind)
  · intro h
    induction h with
    | nil => rfl
    | @cons high low text b bytes hhigh hlow _ ih =>
      have hbyte : UInt8.ofNat (16 * (b.toNat / 16) + b.toNat % 16) = b := by
        rw [Nat.div_add_mod, UInt8.ofNat_toNat]
      rw [parse?, value?_eq_some_iff.mpr hhigh, value?_eq_some_iff.mpr hlow, ih]
      exact congrArg (fun first => some (first :: bytes)) hbyte

end Hex

namespace Decimal

/-- The text is one or more decimal digits with this value, perhaps behind a plus sign. -/
def Spells (text : List Char) (n : Nat) : Prop :=
  ∃ digits, (text = digits ∨ text = '+' :: digits) ∧ digits ≠ [] ∧ (∀ c ∈ digits, c.isDigit) ∧
    Nat.ofDigitChars 10 digits 0 = n

theorem Spells.lt {text : List Char} {n : Nat} (h : Spells text n) : ∀ c ∈ text, c.toNat < 128 := by
  obtain ⟨digits, htext, -, hdigits, -⟩ := h
  intro c hc
  rcases htext with rfl | rfl
  · exact lt_of_isDigit (hdigits c hc)
  · rcases List.mem_cons.mp hc with rfl | hc
    · decide
    · exact lt_of_isDigit (hdigits c hc)

/-- The digits below ten are the decimal ones. -/
theorem value?_eq_some_iff_isDigit {c : Char} {d : Nat} :
    Hex.value? c = some d ∧ d < 10 ↔ c.isDigit ∧ c.toNat - '0'.toNat = d := by
  have hdecimal : c.isDigit ↔ '0' ≤ c ∧ c ≤ '9' := by
    simp [Char.isDigit, Char.le_def]
  rw [hdecimal]
  unfold Hex.value?
  split_ifs with hrange hother hother
  · have hhigh : c.toNat ≤ 57 := Hex.toNat_le_of_le hrange.2
    have hzero : '0'.toNat = 48 := rfl
    simp only [Option.some.injEq, hrange, and_self, true_and]
    omega
  -- letters are worth ten and more
  · simp only [Option.some.injEq, hrange, false_and, iff_false]
    omega
  · simp only [Option.some.injEq, hrange, false_and, iff_false]
    omega
  · simp [hrange]

/-- Decimal digits, and nothing else, are read as digits. -/
theorem digits?_eq_some_iff {text : List Char} {digits : List Nat} :
    Numeral.digits? 10 text = some digits ↔
      (∀ c ∈ text, c.isDigit) ∧ text.map (fun c => c.toNat - '0'.toNat) = digits := by
  induction text generalizing digits with
  | nil => simp [Numeral.digits?]
  | cons c rest ih =>
    simp only [Numeral.digits?, Option.bind_eq_bind, Option.bind_eq_some_iff,
      Option.ite_none_right_eq_some, Option.map_eq_some_iff, List.forall_mem_cons, List.map_cons]
    constructor
    · rintro ⟨d, hd, hsmall, behind, hbehind, rfl⟩
      obtain ⟨hdigit, rfl⟩ := value?_eq_some_iff_isDigit.mp ⟨hd, hsmall⟩
      obtain ⟨hdigits, rfl⟩ := ih.mp hbehind
      exact ⟨⟨hdigit, hdigits⟩, rfl⟩
    · rintro ⟨⟨hdigit, hdigits⟩, rfl⟩
      obtain ⟨hd, hsmall⟩ := value?_eq_some_iff_isDigit.mpr ⟨hdigit, rfl⟩
      exact ⟨_, hd, hsmall, _, ih.mpr ⟨hdigits, rfl⟩, rfl⟩

theorem value_map (text : List Char) (front : Nat) :
    Numeral.value 10 front (text.map fun c => c.toNat - '0'.toNat) =
      Nat.ofDigitChars 10 text front := by
  induction text generalizing front with
  | nil => rfl
  | cons c rest ih => rw [List.map_cons, Numeral.value, ih, Nat.ofDigitChars_cons]

/-- Digits are what is left of a text without its sign if they are all of it, or all behind a sign. -/
theorem unsigned_eq_iff {text digits : List Char} (h : ∀ c ∈ digits, c.isDigit) :
    unsigned text = digits ↔ text = digits ∨ text = '+' :: digits := by
  constructor
  · rintro rfl
    unfold unsigned
    split
    · exact .inr rfl
    · exact .inl rfl
  · rintro (rfl | rfl)
    · unfold unsigned
      split
      · -- a sign is no digit
        exact absurd (h _ List.mem_cons_self) (by decide)
      · rfl
    · rfl

/-- A text is read as a word exactly if it spells the number of that word. -/
theorem parse?_eq_some_iff {text : List Char} {w : UInt64} :
    parse? text = some w ↔ Spells text w.toNat := by
  -- a plus sign in front is left to the reader of the sign
  have hread : parse? text = some w ↔
      Numeral.parse? 10 UInt64.size (unsigned text) = some w.toNat := by
    rw [parse?, Option.map_eq_map, Option.map_eq_some_iff]
    constructor
    · rintro ⟨n, hn, rfl⟩
      obtain ⟨-, -, -, -, hfits⟩ := (Numeral.parse?_eq_some_iff (by decide) (by decide)).mp hn
      rw [UInt64.toNat_ofNat_of_lt' hfits, hn]
    · exact fun h => ⟨_, h, UInt64.ofNat_toNat⟩
  rw [hread, Numeral.parse?_eq_some_iff (by decide) (by decide)]
  constructor
  · rintro ⟨hne, values, hvalues, hnumber, -⟩
    obtain ⟨hdigits, rfl⟩ := digits?_eq_some_iff.mp hvalues
    rw [value_map] at hnumber
    exact ⟨unsigned text, (unsigned_eq_iff hdigits).mp rfl, hne, hdigits, hnumber⟩
  · rintro ⟨digits, htext, hne, hdigits, hnumber⟩
    rw [(unsigned_eq_iff hdigits).mpr htext]
    exact ⟨hne, _, digits?_eq_some_iff.mpr ⟨hdigits, rfl⟩, (value_map digits 0).trans hnumber,
      w.toNat_lt⟩

end Decimal

end BarrierStore
