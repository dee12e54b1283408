import BarrierStore.Bytes

/-!
# Hexadecimal byte strings

Keys may hold any byte, so a line of text names them in hexadecimal.

The module introduces `Hex.digits bytes`, two lower-case digits for each byte, high half first,
and `Hex.parse? text`, which accepts any even number of digits of either case. Parsing undoes
writing (`parse?_digits`).
-/

namespace BarrierStore.Hex

/-- The digit of a number below 16. -/
def digit (n : Nat) : Char :=
  Nat.digitChar n

/-- The value of a digit of either case. -/
def value? (c : Char) : Option Nat :=
  if '0' ≤ c ∧ c ≤ '9' then some (c.toNat - '0'.toNat)
  else if 'a' ≤ c ∧ c ≤ 'f' then some (c.toNat - 'a'.toNat + 10)
  else if 'A' ≤ c ∧ c ≤ 'F' then some (c.toNat - 'A'.toNat + 10)
  else none

/-- Two lower-case digits for each byte, high half first. -/
def digits (bytes : Bytes) : List Char :=
  bytes.flatMap fun b => [digit (b.toNat / 16), digit (b.toNat % 16)]

/-- The bytes spelled by an even number of digits. -/
def parse? : (text : List Char) → Option Bytes
  | [] => some []
  | [_] => none
  | high :: low :: rest => do
    let h ← value? high
    let l ← value? low
    let bytes ← parse? rest
    return UInt8.ofNat (16 * h + l) :: bytes

/-- A digit has the value it was made from. -/
theorem value?_digit {n : Nat} (h : n < 16) : value? (digit n) = some n := by
  have : ∀ n : Fin 16, value? (digit n) = some n.val := by decide
  exact this ⟨n, h⟩

/-- Every byte string is read back from its digits. -/
theorem parse?_digits (bytes : Bytes) : parse? (digits bytes) = some bytes := by
  induction bytes with
  | nil => rfl
  | cons b rest ih =>
    have hb : b.toNat < 256 := b.toNat_lt
    have whole : UInt8.ofNat (16 * (b.toNat / 16) + b.toNat % 16) = b := by
      rw [show 16 * (b.toNat / 16) + b.toNat % 16 = b.toNat by omega, UInt8.ofNat_toNat]
    have high : b.toNat / 16 < 16 := by omega
    have low : b.toNat % 16 < 16 := by omega
    simp only [digits, List.flatMap_cons, List.cons_append, List.nil_append] at ih ⊢
    rw [parse?, value?_digit high, value?_digit low, ih]
    exact congrArg (fun c => some (c :: rest)) whole

/-- What is written consists of digits. -/
theorem exists_digit_of_mem_digits {bytes : Bytes} {c : Char} (h : c ∈ digits bytes) :
    ∃ n : Fin 16, c = digit n := by
  obtain ⟨b, -, hc⟩ := List.mem_flatMap.mp h
  have hb : b.toNat < 256 := b.toNat_lt
  simp only [List.mem_cons, List.not_mem_nil, or_false] at hc
  rcases hc with rfl | rfl
  · exact ⟨⟨b.toNat / 16, by omega⟩, rfl⟩
  · exact ⟨⟨b.toNat % 16, by omega⟩, rfl⟩

/-- What is written is ASCII. -/
theorem lt_of_mem_digits {bytes : Bytes} {c : Char} (h : c ∈ digits bytes) : c.toNat < 128 := by
  obtain ⟨n, rfl⟩ := exists_digit_of_mem_digits h
  exact (by decide : ∀ n : Fin 16, (digit n).toNat < 128) n

/-- What is written holds no space. -/
theorem ne_space_of_mem_digits {bytes : Bytes} {c : Char} (h : c ∈ digits bytes) : c ≠ ' ' := by
  obtain ⟨n, rfl⟩ := exists_digit_of_mem_digits h
  exact (by decide : ∀ n : Fin 16, digit n ≠ ' ') n

end BarrierStore.Hex
