/-!
# Byte strings and fixed-width numbers

Byte strings are lists of `UInt8`. Every stored or transmitted number has a fixed width; its
bytes come least significant first in records and most significant first on the wire.

The module introduces:

* `Bytes.littleEndian width n`, `Bytes.bigEndian width n` — the `width` low-order bytes of `n`;
* `Bytes.ofLittleEndian`, `Bytes.ofBigEndian` — the number that a byte string spells;
* `Bytes.count width` — how many byte strings have that length, and so how many numbers fit;
* `Bytes.maxLength` — the length that no byte string in memory or on a disk exceeds;
* `Bytes.HasAtLeast bytes n` — whether there are `n` bytes, decided without a look at more of them;
* `Bytes.overwrite`, `Bytes.resize` — what a positioned write and a change of length do to the
  contents of a file.

Reading undoes writing up to the width (`ofLittleEndian_littleEndian`), and writing undoes
reading at the string's own length (`littleEndian_ofLittleEndian`), so a fixed-width number has
exactly one spelling.
-/

namespace BarrierStore

/-- A byte string. -/
abbrev Bytes := List UInt8

namespace Bytes

/-- The `width` low-order bytes of `n`, least significant first. -/
def littleEndian : (width : Nat) → (n : Nat) → Bytes
  | 0, _ => []
  | width + 1, n => UInt8.ofNat n :: littleEndian width (n / 256)

/-- The number spelled by `bytes`, least significant byte first. -/
def ofLittleEndian : (bytes : Bytes) → Nat
  | [] => 0
  | b :: rest => b.toNat + 256 * ofLittleEndian rest

/-- The number of byte strings of length `width`: the first number that does not fit. -/
def count : (width : Nat) → Nat
  | 0 => 1
  | width + 1 => 256 * count width

/-- The `width` low-order bytes of `n`, most significant first. -/
def bigEndian (width n : Nat) : Bytes :=
  (littleEndian width n).reverse

/-- The number spelled by `bytes`, most significant byte first. -/
def ofBigEndian (bytes : Bytes) : Nat :=
  ofLittleEndian bytes.reverse

/-- The greatest length of a byte string in memory or on a disk: lengths are signed 64-bit words
there. -/
def maxLength : Nat := UInt64.size / 2 - 1

/-- Eight bytes hold a 64-bit word. -/
theorem count_eight : count 8 = UInt64.size := rfl

@[simp]
theorem length_littleEndian (width n : Nat) : (littleEndian width n).length = width := by
  induction width generalizing n with
  | zero => rfl
  | succ width ih => simp [littleEndian, ih]

@[simp]
theorem length_bigEndian (width n : Nat) : (bigEndian width n).length = width := by
  simp [bigEndian]

/-- Reading back the `width` low-order bytes gives the number modulo `count width`. -/
theorem ofLittleEndian_littleEndian (width n : Nat) :
    ofLittleEndian (littleEndian width n) = n % count width := by
  induction width generalizing n with
  | zero => simp [littleEndian, ofLittleEndian, count, Nat.mod_one]
  | succ width ih =>
    have byte : (UInt8.ofNat n).toNat = n % 256 := by simp
    rw [littleEndian, ofLittleEndian, ih, byte, count, Nat.mod_mul]

/-- A byte string is the spelling of the number it spells, at its own length. -/
theorem littleEndian_ofLittleEndian (bytes : Bytes) :
    littleEndian bytes.length (ofLittleEndian bytes) = bytes := by
  induction bytes with
  | nil => rfl
  | cons b rest ih =>
    have hb : b.toNat < 256 := b.toNat_lt
    have hdiv : (b.toNat + 256 * ofLittleEndian rest) / 256 = ofLittleEndian rest := by omega
    have hmod : UInt8.ofNat (b.toNat + 256 * ofLittleEndian rest) = b := by
      apply UInt8.toNat_inj.mp
      rw [UInt8.toNat_ofNat']
      omega
    simp only [List.length_cons, littleEndian, ofLittleEndian, hdiv, hmod, ih]

/-- A byte string spells a number that fits its length. -/
theorem ofLittleEndian_lt (bytes : Bytes) : ofLittleEndian bytes < count bytes.length := by
  induction bytes with
  | nil => simp [ofLittleEndian, count]
  | cons b rest ih =>
    have hb : b.toNat < 256 := b.toNat_lt
    simp only [ofLittleEndian, List.length_cons, count]
    omega

/-- Reading back the `width` low-order bytes gives the number modulo `count width`. -/
theorem ofBigEndian_bigEndian (width n : Nat) : ofBigEndian (bigEndian width n) = n % count width := by
  simp [ofBigEndian, bigEndian, ofLittleEndian_littleEndian]

/-- A byte string is the spelling of the number it spells, at its own length. -/
theorem bigEndian_ofBigEndian (bytes : Bytes) : bigEndian bytes.length (ofBigEndian bytes) = bytes := by
  have h := littleEndian_ofLittleEndian bytes.reverse
  rw [List.length_reverse] at h
  simp [ofBigEndian, bigEndian, h]

/-- A byte string spells a number that fits its length. -/
theorem ofBigEndian_lt (bytes : Bytes) : ofBigEndian bytes < count bytes.length := by
  simpa [ofBigEndian] using ofLittleEndian_lt bytes.reverse

/-- Whether a byte string has `n` bytes or more. -/
def HasAtLeast (bytes : Bytes) (n : Nat) : Prop :=
  n ≤ bytes.length

/-- Count `n` bytes off, as long as there are any. -/
def reaches : (n : Nat) → (bytes : Bytes) → Bool
  | 0, _ => true
  | _ + 1, [] => false
  | n + 1, _ :: rest => reaches n rest

theorem reaches_iff {n : Nat} {bytes : Bytes} : reaches n bytes = true ↔ HasAtLeast bytes n := by
  fun_induction reaches n bytes with
  | case1 => simp [HasAtLeast]
  | case2 => simp [HasAtLeast]
  | case3 n _ rest ih =>
    rw [ih]
    simp [HasAtLeast]

/-- The string is walked for `n` bytes only, so a reader of many small pieces does not walk the
whole of what is left for each. -/
instance (bytes : Bytes) (n : Nat) : Decidable (HasAtLeast bytes n) :=
  decidable_of_iff _ reaches_iff

/-- The contents after a change of length: bytes past the new length are lost, missing ones
read as zero. -/
def resize (contents : Bytes) (length : Nat) : Bytes :=
  contents.take length ++ List.replicate (length - contents.length) 0

/-- The contents after writing `data` at `offset`: a gap before the offset reads as zero. -/
def overwrite (contents : Bytes) (offset : Nat) (data : Bytes) : Bytes :=
  resize contents offset ++ data ++ contents.drop (offset + data.length)

@[simp]
theorem length_resize (contents : Bytes) (length : Nat) : (resize contents length).length = length := by
  simp [resize]
  omega

/-- Writing at the end of the contents appends. -/
theorem overwrite_length (contents data : Bytes) :
    overwrite contents contents.length data = contents ++ data := by
  simp [overwrite, resize]

end Bytes

end BarrierStore
