import BarrierStore.Disk.Contents
import BarrierStore.Segment.Record

/-!
# Scanning a segment

A segment is read from its start, one record after the other. The scan ends at the end of the
file, at the first record that would start at the capacity or past it, or at bytes that are no
whole record.

The module introduces:

* `Contents.recordAt?` — the record at an offset of a file. It is the one that stands in front of
  the bytes from there on (`recordAt?_eq`), but no other bytes are looked at;
* `Scan` — the records with their offsets, where the scan ended, and whether it ended on bytes
  that are no whole record (a torn tail);
* `Scan.ofContents` — the scan of a file.
-/

namespace BarrierStore

namespace Contents

/-- The field at an offset; `none` if the file ends inside it. -/
def fieldAt? (contents : Contents) (offset : Nat) : Option Bytes :=
  let start := offset + Record.lengthWidth
  if contents.length < start then none
  else
    let size := Bytes.ofLittleEndian (contents.slice offset Record.lengthWidth)
    if contents.length < start + size then none else some (contents.slice start size)

/-- The record at an offset; `none` if the file ends inside it. -/
def recordAt? (contents : Contents) (offset : Nat) : Option Record := do
  let key ← contents.fieldAt? offset
  let value ← contents.fieldAt? (offset + Record.lengthWidth + key.length)
  return ⟨key, value⟩

/-- The field at an offset stands in front of the bytes from there on. -/
theorem takeField?_drop (contents : Contents) (offset : Nat) :
    Record.takeField? (contents.toBytes.drop offset) = (contents.fieldAt? offset).map
      fun field => (field, contents.toBytes.drop (offset + Record.lengthWidth + field.length)) := by
  simp only [Record.takeField?, fieldAt?, Bytes.HasAtLeast, slice_eq, List.length_drop,
    length_toBytes, List.drop_drop]
  generalize Bytes.ofLittleEndian ((contents.toBytes.drop offset).take Record.lengthWidth) = size
  -- the length is cut, or the field is, or both are there
  by_cases short : contents.length < offset + Record.lengthWidth
  · rw [if_neg (by simp only [Record.lengthWidth] at short ⊢; omega), if_pos short]
    rfl
  · rw [if_pos (by omega), if_neg short]
    by_cases cut : contents.length < offset + Record.lengthWidth + size
    · rw [if_neg (by simp only [Record.lengthWidth] at short cut ⊢; omega), if_pos cut]
      rfl
    · have width : ((contents.toBytes.drop (offset + Record.lengthWidth)).take size).length = size := by
        rw [List.length_take, List.length_drop, length_toBytes]
        omega
      rw [if_pos (by omega), if_neg cut]
      simp only [Option.map_some, width]

/-- The record at an offset stands in front of the bytes from there on. -/
theorem recordAt?_eq (contents : Contents) (offset : Nat) :
    contents.recordAt? offset =
      (Record.parse? (contents.toBytes.drop offset)).map fun (record, _) => record := by
  rw [recordAt?, Record.parse?, takeField?_drop]
  cases contents.fieldAt? offset with
  | none => rfl
  | some key =>
    simp only [Option.map_some, Option.bind_eq_bind, Option.bind_some, takeField?_drop]
    cases contents.fieldAt? (offset + Record.lengthWidth + key.length) <;> rfl

end Contents

/-- What a scan finds. -/
structure Scan where
  /-- The records in order, each with its offset. -/
  records : List (Nat × Record)
  /-- Whether the scan ended on bytes that are no whole record. -/
  torn : Bool
  /-- The offset past the last record. -/
  stop : Nat
  deriving DecidableEq

namespace Scan

/-- The scan of a file from `offset` on. -/
def fromOffset (capacity : Nat) (contents : Contents) (offset : Nat) : Scan :=
  if contents.length ≤ offset ∨ capacity ≤ offset then ⟨[], false, offset⟩
  else
    match contents.recordAt? offset with
    | none => ⟨[], true, offset⟩
    | some record =>
      -- no record is empty, so less of the file is left
      let tail := fromOffset capacity contents (offset + record.length)
      { tail with records := (offset, record) :: tail.records }
termination_by contents.length - offset
decreasing_by
  have := record.length_pos
  omega

/-- The scan of a file with these contents. -/
def ofContents (capacity : Nat) (contents : Contents) : Scan :=
  fromOffset capacity contents 0

end Scan

end BarrierStore
