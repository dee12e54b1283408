import BarrierStore.Bytes
import BarrierStore.Fault

/-!
# Records

A record stores one value under one key: the length of the key in eight bytes, least significant
first, the key, the length of the value, the value. Nothing else marks where a record ends.

The module introduces:

* `Record.encode`, `Record.length` — the bytes of a record, and how many they are;
* `Record.parse?` — the record at the front of a byte string, with what follows it;
* `Record.readWithin`, `Record.readAllWithin` — the same with a limit on the bytes that may be used,
  once and again and again. Under a limit that admits it, a length that no memory holds is a fault.

A record is read back whatever follows it (`parse?_encode_append`), and what is read is what
stands in front (`eq_encode_append_of_parse?`).
-/

namespace BarrierStore

/-- A value under its key. -/
structure Record where
  key : Bytes
  value : Bytes
  deriving DecidableEq, Inhabited

namespace Record

/-- The width of a length. -/
def lengthWidth : Nat := 8

/-- A field behind its length. -/
def encodeField (field : Bytes) : Bytes :=
  Bytes.littleEndian lengthWidth field.length ++ field

/-- The bytes of a record. -/
def encode (record : Record) : Bytes :=
  encodeField record.key ++ encodeField record.value

/-- The number of bytes of a record. -/
def length (record : Record) : Nat :=
  2 * lengthWidth + record.key.length + record.value.length

/-- The field at the front of `bytes`, with what follows it; `none` if the bytes end inside it. -/
def takeField? (bytes : Bytes) : Option (Bytes × Bytes) :=
  if Bytes.HasAtLeast bytes lengthWidth then
    let size := Bytes.ofLittleEndian (bytes.take lengthWidth)
    let rest := bytes.drop lengthWidth
    if Bytes.HasAtLeast rest size then some (rest.take size, rest.drop size) else none
  else none

/-- The record at the front of `bytes`, with what follows it; `none` if the bytes end inside it. -/
def parse? (bytes : Bytes) : Option (Record × Bytes) := do
  let (key, rest) ← takeField? bytes
  let (value, rest) ← takeField? rest
  return (⟨key, value⟩, rest)

/-- The field at the front of `bytes`, with what follows it, if it lies within the first `limit`
bytes. Room for the field is made before its bytes are looked at, so a length that no memory holds
is a fault even where the bytes end early. -/
def takeFieldWithin (limit : Nat) (bytes : Bytes) : Except Fault (Option (Bytes × Bytes)) :=
  if lengthWidth ≤ limit ∧ Bytes.HasAtLeast bytes lengthWidth then
    let size := Bytes.ofLittleEndian (bytes.take lengthWidth)
    if limit - lengthWidth < size then .ok none
    else if Bytes.maxLength < size then .error .arithmetic
    else .ok (takeField? bytes)
  else .ok none

/-- The record at the front of `bytes`, with what follows it, if it lies within the first
`limit` bytes. -/
def readWithin (limit : Nat) (bytes : Bytes) : Except Fault (Option (Record × Bytes)) := do
  let some (key, rest) ← takeFieldWithin limit bytes | return none
  let some (value, rest) ← takeFieldWithin (limit - lengthWidth - key.length) rest | return none
  return some (⟨key, value⟩, rest)

/-- The records at the front of `bytes`, one behind the other, as far as they lie within the first
`limit` bytes; at most `count` of them. -/
def readUpTo : (count : Nat) → (limit : Nat) → (bytes : Bytes) → Except Fault (List Record)
  | 0, _, _ => .ok []
  | count + 1, limit, bytes => do
    let some (record, rest) ← readWithin limit bytes | return []
    return record :: (← readUpTo count (limit - record.length) rest)

/-- All records at the front of `bytes`, one behind the other, as far as they lie within the first
`limit` bytes. A record has a byte at least, so there are no more of them than bytes. -/
def readAllWithin (limit : Nat) (bytes : Bytes) : Except Fault (List Record) :=
  readUpTo (bytes.length + 1) limit bytes

@[simp]
theorem length_encodeField (field : Bytes) :
    (encodeField field).length = lengthWidth + field.length := by
  simp [encodeField]

@[simp]
theorem length_encode (record : Record) : record.encode.length = record.length := by
  simp [encode, length]
  omega

/-- A field whose length fits eight bytes is read back whatever follows it. -/
theorem takeField?_encodeField_append {field : Bytes} (h : field.length < UInt64.size) (rest : Bytes) :
    takeField? (encodeField field ++ rest) = some (field, rest) := by
  have front : (encodeField field ++ rest).take lengthWidth =
      Bytes.littleEndian lengthWidth field.length := by
    simp [encodeField]
  have back : (encodeField field ++ rest).drop lengthWidth = field ++ rest := by
    simp [encodeField]
  have size : Bytes.ofLittleEndian (Bytes.littleEndian lengthWidth field.length) = field.length := by
    rw [Bytes.ofLittleEndian_littleEndian]
    exact Nat.mod_eq_of_lt h
  have long : Bytes.HasAtLeast (encodeField field ++ rest) lengthWidth := by
    rw [Bytes.HasAtLeast, List.length_append, length_encodeField]
    omega
  rw [takeField?, if_pos long]
  simp [front, back, size, Bytes.HasAtLeast]

/-- What is read as a field stands in front as that field. -/
theorem eq_encodeField_append_of_takeField? {bytes field rest : Bytes}
    (h : takeField? bytes = some (field, rest)) : bytes = encodeField field ++ rest := by
  unfold takeField? at h
  split at h
  case isFalse => cases h
  rename_i long
  dsimp only at h
  split at h
  · rename_i fits
    cases h
    unfold Bytes.HasAtLeast at long fits
    have width : (bytes.take lengthWidth).length = lengthWidth := by
      simp
      omega
    -- the length that was read is spelled by the bytes it was read from
    have spelled := Bytes.littleEndian_ofLittleEndian (bytes.take lengthWidth)
    rw [width] at spelled
    have size : ((bytes.drop lengthWidth).take (Bytes.ofLittleEndian (bytes.take lengthWidth))).length =
        Bytes.ofLittleEndian (bytes.take lengthWidth) := by
      rw [List.length_take]
      omega
    rw [encodeField, size, spelled, List.append_assoc, List.take_append_drop, List.take_append_drop]
  · cases h

/-- The length of a field that was read fits eight bytes. -/
theorem length_lt_of_takeField? {bytes field rest : Bytes}
    (h : takeField? bytes = some (field, rest)) : field.length < UInt64.size := by
  unfold takeField? at h
  split at h
  case isFalse => cases h
  rename_i long
  dsimp only at h
  split at h
  · cases h
    unfold Bytes.HasAtLeast at long
    have bound := Bytes.ofLittleEndian_lt (bytes.take lengthWidth)
    have width : (bytes.take lengthWidth).length = 8 := by
      simp only [List.length_take, lengthWidth] at long ⊢
      omega
    rw [width, Bytes.count_eight] at bound
    rw [List.length_take]
    omega
  · cases h

/-- A record whose lengths fit eight bytes is read back whatever follows it. -/
theorem parse?_encode_append {record : Record} (hkey : record.key.length < UInt64.size)
    (hvalue : record.value.length < UInt64.size) (rest : Bytes) :
    parse? (record.encode ++ rest) = some (record, rest) := by
  simp [parse?, encode, List.append_assoc, takeField?_encodeField_append hkey,
    takeField?_encodeField_append hvalue]

/-- What is read as a record stands in front as that record. -/
theorem eq_encode_append_of_parse? {bytes rest : Bytes} {record : Record}
    (h : parse? bytes = some (record, rest)) : bytes = record.encode ++ rest := by
  simp only [parse?, Option.bind_eq_bind, Option.bind_eq_some_iff] at h
  obtain ⟨⟨key, middle⟩, hkey, ⟨value, rest'⟩, hvalue, same⟩ := h
  cases same
  dsimp only at hvalue ⊢
  rw [eq_encodeField_append_of_takeField? hkey, eq_encodeField_append_of_takeField? hvalue]
  simp [encode, List.append_assoc]

/-- Reading takes the record's bytes from the front, so less is left. -/
theorem length_of_parse? {bytes rest : Bytes} {record : Record}
    (h : parse? bytes = some (record, rest)) : bytes.length = record.length + rest.length := by
  rw [eq_encode_append_of_parse? h, List.length_append, length_encode]

theorem length_pos (record : Record) : 0 < record.length := by
  simp only [length, lengthWidth]
  omega

end Record

end BarrierStore
