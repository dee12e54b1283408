/-!
# Positions and addresses

A record starts at an offset of a segment. The index names that position by a single 64-bit
address: the segment's id times the capacity, plus the offset.

The module introduces:

* `Position` — a segment and an offset;
* `Position.address?` — the address, if it fits a word;
* `Position.ofAddress?` — the position that an address names, if the capacity is not zero.

Below the capacity, offsets leave room for no other segment, so an address names one position
(`ofAddress?_address?`), and every address names some position (`address?_ofAddress?`).
-/

namespace BarrierStore

/-- Where a record starts. -/
structure Position where
  /-- The id of the segment. -/
  segment : UInt64
  /-- The number of bytes in front of the record. -/
  offset : Nat
  deriving DecidableEq

namespace Position

/-- The address of a position, if it fits a word. -/
def address? (position : Position) (capacity : UInt64) : Option UInt64 :=
  let n := position.segment.toNat * capacity.toNat + position.offset
  if n < UInt64.size then some (UInt64.ofNat n) else none

/-- The position that an address names. -/
def ofAddress? (address capacity : UInt64) : Option Position :=
  if capacity = 0 then none
  else some ⟨address / capacity, address.toNat % capacity.toNat⟩

theorem address?_eq_some_iff {position : Position} {capacity address : UInt64} :
    position.address? capacity = some address ↔
      position.segment.toNat * capacity.toNat + position.offset = address.toNat := by
  simp only [address?]
  constructor
  · intro h
    split at h
    · rename_i fits
      cases h
      rw [UInt64.toNat_ofNat_of_lt' fits]
    · cases h
  · intro h
    rw [h, if_pos address.toNat_lt, UInt64.ofNat_toNat]

/-- A capacity other than zero is positive as a number. -/
theorem capacity_pos {capacity : UInt64} (h : capacity ≠ 0) : 0 < capacity.toNat := by
  rcases Nat.eq_zero_or_pos capacity.toNat with zero | pos
  · exact absurd (UInt64.toNat_inj.mp zero) h
  · exact pos

/-- An address whose offset is below the capacity names the position that it was made from. -/
theorem ofAddress?_address? {position : Position} {capacity address : UInt64}
    (below : position.offset < capacity.toNat) (h : position.address? capacity = some address) :
    ofAddress? address capacity = some position := by
  have nonzero : capacity ≠ 0 := by
    rintro rfl
    simp at below
  have pos := capacity_pos nonzero
  rw [address?_eq_some_iff] at h
  have quotient : address.toNat / capacity.toNat = position.segment.toNat := by
    rw [← h, Nat.add_comm, Nat.add_mul_div_right _ _ pos, Nat.div_eq_of_lt below, Nat.zero_add]
  have remainder : address.toNat % capacity.toNat = position.offset := by
    rw [← h, Nat.add_comm, Nat.add_mul_mod_self_right, Nat.mod_eq_of_lt below]
  have segment : address / capacity = position.segment := by
    apply UInt64.toNat_inj.mp
    rw [UInt64.toNat_div, quotient]
  simp [ofAddress?, nonzero, segment, remainder]

/-- Every address is the address of the position that it names. -/
theorem address?_ofAddress? {position : Position} {capacity address : UInt64}
    (h : ofAddress? address capacity = some position) : position.address? capacity = some address := by
  unfold ofAddress? at h
  split at h
  · cases h
  · cases h
    rw [address?_eq_some_iff, UInt64.toNat_div]
    exact Nat.div_add_mod' _ _

end Position

end BarrierStore
