import BarrierStore.Bytes

/-!
# The contents of files

A file holds the bytes up to the last one that was written, packed, and behind them a gap that reads
as zeros. A file is extended by widening its gap, so it may be far longer than what it holds.

The module introduces:

* `Contents` — what a file holds; `Contents.toBytes` is what a reader of the whole file sees;
* `Contents.ofBytes`, `Contents.length`, `Contents.slice` — the contents of given bytes, how many
  there are, and a part of them;
* `Contents.resize`, `Contents.overwrite` — a change of length, and a positioned write.

Every operation does to `toBytes` what it says of byte strings (`length_toBytes`, `slice_eq`,
`toBytes_resize`, `toBytes_overwrite`).
-/

namespace BarrierStore

/-- What a file holds. -/
structure Contents where
  /-- The bytes up to the last one that was written. -/
  written : ByteArray
  /-- How many zeros follow them. -/
  gap : Nat

namespace Contents

/-- No bytes. -/
def empty : Contents := ⟨.empty, 0⟩

instance : Inhabited Contents := ⟨empty⟩

/-- The contents of a file with these bytes. -/
def ofBytes (bytes : Bytes) : Contents := ⟨bytes.toByteArray, 0⟩

/-- What a reader sees. -/
def toBytes (contents : Contents) : Bytes :=
  contents.written.data.toList ++ List.replicate contents.gap 0

/-- How many bytes a reader sees. -/
def length (contents : Contents) : Nat :=
  contents.written.size + contents.gap

/-- The bytes from `offset` on, `count` of them or as many as there are. -/
def slice (contents : Contents) (offset count : Nat) : Bytes :=
  let stop := min (offset + count) contents.length
  let packed := contents.written.extract offset (min stop contents.written.size)
  packed.data.toList ++ List.replicate (stop - offset - packed.size) 0

/-- The contents after a change of length. -/
def resize (contents : Contents) (length : Nat) : Contents :=
  if length ≤ contents.written.size then ⟨contents.written.extract 0 length, 0⟩
  else ⟨contents.written, length - contents.written.size⟩

/-- Packed bytes with so many zeros behind them. -/
def pushZeros : (count : Nat) → (packed : ByteArray) → ByteArray
  | 0, packed => packed
  | count + 1, packed => pushZeros count (packed.push 0)

/-- The contents after writing `data` at `offset`. -/
def overwrite (contents : Contents) (offset : Nat) (data : Bytes) : Contents :=
  let size := contents.written.size
  let stop := offset + data.length
  -- a gap in front of the data is packed as zeros
  let front := pushZeros (offset - size) (contents.written.extract 0 (min offset size))
  ⟨front ++ data.toByteArray ++ contents.written.extract (min stop size) size,
    contents.length - max stop size⟩

/-! ## What a reader sees -/

@[simp]
theorem length_toBytes (contents : Contents) : contents.toBytes.length = contents.length := by
  simp [toBytes, length]

@[simp]
theorem toBytes_empty : empty.toBytes = [] := rfl

@[simp]
theorem toBytes_ofBytes (bytes : Bytes) : (ofBytes bytes).toBytes = bytes := by
  simp [toBytes, ofBytes]

/-- Zeros are pushed behind the packed bytes. -/
theorem toList_pushZeros (count : Nat) (packed : ByteArray) :
    (pushZeros count packed).data.toList = packed.data.toList ++ List.replicate count 0 := by
  induction count generalizing packed with
  | zero => simp [pushZeros]
  | succ count ih =>
    rw [pushZeros, ih, ByteArray.data_push, Array.toList_push, List.append_assoc,
      List.replicate_succ]
    rfl

/-- A part of the packed bytes is that part of the list of them. -/
theorem toList_extract (packed : ByteArray) (start stop : Nat) :
    (packed.extract start stop).data.toList = (packed.data.toList.drop start).take (stop - start) := by
  simp [ByteArray.data_extract, Array.toList_extract, List.extract_eq_take_drop]

/-- A slice is a part of what a reader sees. -/
theorem slice_eq (contents : Contents) (offset count : Nat) :
    contents.slice offset count = (contents.toBytes.drop offset).take count := by
  have size : contents.written.data.toList.length = contents.written.size := by simp
  simp only [slice, toBytes, length, toList_extract, List.drop_append, List.take_append,
    List.drop_replicate, List.take_replicate, ByteArray.size_extract, List.length_drop, size]
  congr 1
  · rw [List.take_eq_take_iff]
    simp only [List.length_drop, size]
    omega
  · congr 1
    omega

/-- A reader sees the change of length. -/
theorem toBytes_resize (contents : Contents) (length : Nat) :
    (contents.resize length).toBytes = contents.toBytes.resize length := by
  have size : contents.written.data.toList.length = contents.written.size := by simp
  rw [Bytes.resize, length_toBytes, Contents.length, resize]
  split
  · rename_i shorter
    have none : length - contents.written.size = 0 := by omega
    have all : length - (contents.written.size + contents.gap) = 0 := by omega
    simp [toBytes, List.take_append, none, all]
  · rename_i longer
    rw [toBytes, toBytes, List.take_append, List.take_of_length_le (by omega), size,
      List.take_replicate, List.append_assoc, List.replicate_append_replicate]
    congr 2
    show length - contents.written.size = _
    omega

/-- A reader sees the write. -/
theorem toBytes_overwrite (contents : Contents) (offset : Nat) (data : Bytes) :
    (contents.overwrite offset data).toBytes = contents.toBytes.overwrite offset data := by
  have size : contents.written.data.toList.length = contents.written.size := by simp
  rw [Bytes.overwrite, Bytes.resize, length_toBytes, Contents.length, overwrite]
  -- on both sides: packed bytes, zeros, the data, packed bytes, zeros
  have zeros : List.replicate (min (offset - contents.written.size) contents.gap) (0 : UInt8)
      ++ List.replicate (offset - (contents.written.size + contents.gap)) 0
      = List.replicate (offset - contents.written.size) 0 := by
    rw [List.replicate_append_replicate]
    congr 1
    omega
  have front : contents.written.data.toList.take (min offset contents.written.size)
      = contents.written.data.toList.take offset := by
    rw [List.take_eq_take_iff, size]
    omega
  have back : (contents.written.data.toList.drop (min (offset + data.length) contents.written.size)).take
        (contents.written.size - min (offset + data.length) contents.written.size)
      = contents.written.data.toList.drop (offset + data.length) := by
    rw [List.take_of_length_le (by simp)]
    rcases Nat.le_total (offset + data.length) contents.written.size with inside | beyond
    · rw [Nat.min_eq_left inside]
    · rw [Nat.min_eq_right beyond, List.drop_eq_nil_of_le (by omega),
        List.drop_eq_nil_of_le (by omega)]
  have rest : contents.length - max (offset + data.length) contents.written.size
      = contents.gap - (offset + data.length - contents.written.size) := by
    rw [length]
    omega
  simp only [toBytes, ByteArray.toList_data_append, toList_extract, List.toList_data_toByteArray,
    toList_pushZeros, List.drop_zero, Nat.sub_zero, List.take_append, List.drop_append, size,
    List.take_replicate, List.drop_replicate, front, back, rest, List.append_assoc]
  rw [← zeros]
  simp only [List.append_assoc]

end Contents

end BarrierStore
