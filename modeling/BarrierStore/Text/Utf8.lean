import BarrierStore.Bytes

/-!
# UTF-8 text

Text is a list of characters; a file or a message holds it as UTF-8 bytes.

The module introduces:

* `Utf8.encode chars` — the bytes of a text;
* `Utf8.units bytes` — what a byte string holds, one unit after the other: a character, or a
  sequence that is cut short or out of range (a maximal one, so that damage of one character
  counts once);
* `Utf8.decode? bytes` — the text, if every unit is a character;
* `Utf8.decodeLossy bytes` — the text with every damaged unit replaced by U+FFFD.
-/

namespace BarrierStore.Utf8

/-- The UTF-8 bytes of a text. -/
def encode (chars : List Char) : Bytes :=
  chars.flatMap String.utf8EncodeChar

/-- What a leading byte promises: how many continuation bytes follow, the range of the first of
them (narrower than usual where a shorter spelling, a surrogate or a number past U+10FFFF would
be spelled), and the leading bits of the character. -/
def lead? (b : UInt8) : Option (Nat × UInt8 × UInt8 × Nat) :=
  if b < 0x80 then some (0, 0x80, 0xBF, b.toNat)
  -- a continuation byte, or a lead that would spell a one-byte character in two bytes
  else if b < 0xC2 then none
  else if b < 0xE0 then some (1, 0x80, 0xBF, b.toNat - 0xC0)
  else if b < 0xF0 then
    some (2, if b = 0xE0 then 0xA0 else 0x80, if b = 0xED then 0x9F else 0xBF, b.toNat - 0xE0)
  else if b < 0xF5 then
    some (3, if b = 0xF0 then 0x90 else 0x80, if b = 0xF4 then 0x8F else 0xBF, b.toNat - 0xF0)
  else none

/-- Read `count` continuation bytes, the first of them between `low` and `high`, onto `bits`.
The result is `none` at the first byte that does not continue the character, which stays in the
rest. -/
def continuation : (count : Nat) → (low high : UInt8) → (bits : Nat) → Bytes → Option Nat × Bytes
  | 0, _, _, bits, rest => (some bits, rest)
  | _ + 1, _, _, _, [] => (none, [])
  | count + 1, low, high, bits, b :: rest =>
    if low ≤ b ∧ b ≤ high then
      continuation count 0x80 0xBF (bits * 64 + (b.toNat - 0x80)) rest
    else (none, b :: rest)

theorem length_continuation (count : Nat) (low high : UInt8) (bits : Nat) (rest : Bytes) :
    (continuation count low high bits rest).2.length ≤ rest.length := by
  fun_induction continuation count low high bits rest with
  | case1 => exact Nat.le_refl _
  | case2 => exact Nat.le_refl _
  | case3 _ _ _ _ _ _ _ ih => exact Nat.le_succ_of_le ih
  | case4 => exact Nat.le_refl _

/-- The first unit of `b :: rest`, and what follows it. -/
def unit (b : UInt8) (rest : Bytes) : Option Char × Bytes :=
  match lead? b with
  | none => (none, rest)
  | some (count, low, high, bits) =>
    let (bits?, rest) := continuation count low high bits rest
    (bits?.map Char.ofNat, rest)

theorem length_unit (b : UInt8) (rest : Bytes) : (unit b rest).2.length ≤ rest.length := by
  unfold unit
  split
  · exact Nat.le_refl _
  · exact length_continuation ..

/-- The units of a byte string, `none` for a damaged one. -/
def units : Bytes → List (Option Char)
  | [] => []
  | b :: rest => (unit b rest).1 :: units (unit b rest).2
termination_by bytes => bytes.length
decreasing_by exact Nat.lt_succ_of_le (length_unit b rest)

/-- The text that `bytes` hold, if they are UTF-8 throughout. -/
def decode? (bytes : Bytes) : Option (List Char) :=
  (units bytes).mapM id

/-- The text that `bytes` hold, U+FFFD in place of what is not UTF-8. -/
def decodeLossy (bytes : Bytes) : List Char :=
  (units bytes).map (·.getD '\ufffd')

/-- A valid number is the number of the character that it gives. -/
theorem toNat_ofNat {n : Nat} (h : n.isValidChar) : (Char.ofNat n).toNat = n := by
  rw [Char.ofNat, dif_pos h]
  rfl

/-- A byte below 128 is the character of that number. -/
theorem unit_ascii {b : UInt8} (h : b < 0x80) (rest : Bytes) :
    unit b rest = (some (Char.ofNat b.toNat), rest) := by
  simp [unit, lead?, h, continuation]

/-- A string of bytes below 128 decodes byte by byte. -/
theorem decode?_ascii {bytes : Bytes} (h : ∀ b ∈ bytes, b < 0x80) :
    decode? bytes = some (bytes.map fun b => Char.ofNat b.toNat) := by
  induction bytes with
  | nil => simp [decode?, units]
  | cons b rest ih =>
    have ih := ih fun c hc => h c (List.mem_cons_of_mem _ hc)
    rw [decode?, units, unit_ascii (h b List.mem_cons_self), List.mapM_cons]
    rw [decode?] at ih
    simp [ih]

end BarrierStore.Utf8
