import BarrierStore.Disk.Drive
import BarrierStore.Text.Ascii
import BarrierStore.Text.Blank
import BarrierStore.Text.Decimal

/-!
# The range of segments

Two small files say what the segment files mean. The range file holds the id of the first segment
that is in use and the id of the next new one, a line each. The capacity file beside it holds the
capacity that the stored addresses were made with.

The module introduces:

* `SegmentRange` — the segments in use;
* `SegmentRange.load`, `SegmentRange.store` — the range file; without one the range is empty;
* `Capacity.load?`, `Capacity.store` — the capacity file.

Both files are replaced as a whole, by way of a file with the extension `tmp`.
-/

namespace BarrierStore

/-- The text of a file that must be UTF-8, `none` if there is no such file. -/
def Drive.readText? (path : Path) : DiskM (Option (List Char)) := do
  match ← Drive.contentsOf? path with
  | none => return none
  | some contents =>
    match Utf8.decode? contents.toBytes with
    | some text => return some text
    | none => throw (.io .invalidData)

/-- The extension of the file that new contents are first written to. -/
def temporaryExtension : List Char := "tmp".toList

/-- The segments in use: from `first` up to `next`, which is the next new one. -/
structure SegmentRange where
  first : UInt64
  next : UInt64
  deriving DecidableEq

namespace SegmentRange

/-- No segment so far. -/
def empty : SegmentRange := ⟨0, 0⟩

/-- How many segments are in use. -/
def count (range : SegmentRange) : Nat :=
  range.next.toNat - range.first.toNat

/-- The ids of the segments in use, in order. -/
def ids (range : SegmentRange) : List UInt64 :=
  (List.range' range.first.toNat range.count).map UInt64.ofNat

/-- The range after one more segment, if there is an id for it. -/
def grow? (range : SegmentRange) : Option SegmentRange :=
  if range.next.toNat + 1 < UInt64.size then some { range with next := range.next + 1 } else none

/-- The text of a range: both ids in decimal, each on a line. -/
def encode (range : SegmentRange) : List Char :=
  Decimal.digits range.first.toNat ++ '\n' :: (Decimal.digits range.next.toNat ++ ['\n'])

/-- The range that a text spells: two numbers between blanks; what follows them does not count. -/
def parse (path : Path) (text : List Char) : Except StorageFault SegmentRange :=
  match (Blank.fields text).map Decimal.parse? with
  | some first :: some next :: _ =>
    if first ≤ next then .ok ⟨first, next⟩ else .error (.reversedRange first next)
  | _ => .error (.malformedRange path)

/-- The range in a file; without the file, the empty range. -/
def load (path : Path) : DiskM SegmentRange := do
  match ← Drive.readText? path with
  | none => return empty
  | some text =>
    match parse path text with
    | .ok range => return range
    | .error cause => throw (.storage cause)

/-- Replace the range in a file. -/
def store (path : Path) (range : SegmentRange) : DiskM Unit :=
  Drive.replaceFile path temporaryExtension (Utf8.encode range.encode)

end SegmentRange

namespace Capacity

/-- The capacity file beside a range file. -/
def file (rangeFile : Path) : Path :=
  rangeFile.replaceExtension "capacity".toList

/-- The text of a capacity: a line in decimal. -/
def encode (capacity : UInt64) : List Char :=
  Decimal.digits capacity.toNat ++ ['\n']

/-- The capacity that a text spells: one number between blanks, other than zero. -/
def parse? (text : List Char) : Option UInt64 :=
  match Decimal.parse? (Blank.trim text) with
  | some capacity => if capacity = 0 then none else some capacity
  | none => none

/-- The capacity in a file, `none` without the file. -/
def load? (path : Path) : DiskM (Option UInt64) := do
  match ← Drive.readText? path with
  | none => return none
  | some text =>
    match parse? text with
    | some capacity => return some capacity
    | none => throw (.storage (.malformedCapacity path))

/-- Replace the capacity in a file. -/
def store (path : Path) (capacity : UInt64) : DiskM Unit :=
  Drive.replaceFile path temporaryExtension (Utf8.encode (encode capacity))

end Capacity

end BarrierStore
