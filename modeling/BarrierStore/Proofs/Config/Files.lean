import BarrierStore.Proofs.Index.Session
import BarrierStore.Proofs.Path.Names
import BarrierStore.Proofs.Segment.Range
import BarrierStore.Proofs.Segment.Scan
import BarrierStore.Proofs.ValueLog.Selection
import BarrierStore.ValueLog

/-!
# The files of a store

The value log of a configuration lives in the index log, the range file, the capacity file and the
segments; each of the first three is replaced by way of a file beside it.

The module introduces:

* `ValueFile` and `Config.filePath` — the files of a value log and their paths, and
  `Config.besideIndex`, `Config.besideRange`, `Config.besideCapacity`, the paths of the files beside them;
* `Config.Separate` — no two of these files share a name, nor does a file beside them have the name of
  one, and `Config.ownPlaces`, all the names;
* `Config.indexed`, `Config.range?`, `Config.scanned` — what the files on a disk say: the replayed
  index log, the range in use, and the records in the segments with their addresses;
* `Config.HasRoom`, `Config.Vacant` — no directory stands where a file is to go, and no file where a
  segment is to go;
* `Config.Apart` — the number log has nothing to do with these files.

Main statements: `exists_endsIn_segmentFile`, `Disk.Reaches.segment_le` and
`Disk.Reaches.segment_of_notFound` on the names of segments, `ascending_scanned` and `mem_scanned_iff`
on the records.
-/

namespace BarrierStore

/-! ## The names of segments -/

/-- The names of all segments differ in their digits only. -/
theorem exists_endsIn_segmentFile (stem : Path) : ∃ front last, ∀ id : UInt64,
    (stem.segmentFile id).EndsIn front (last ++ Decimal.digits id.toNat) := by
  obtain ⟨front, last, -, hends⟩ := Path.exists_endsIn_extend stem
  exact ⟨front, last, fun id => hends _ (Decimal.digits_ne_nil _)
    (Decimal.not_mem_digits (by decide) _) (Decimal.not_mem_digits (by decide) _)⟩

namespace Disk

variable {disk : Disk} {stem : Path}

/-- The name of a segment is as long as its stem and the digits of its id. -/
theorem length_encode_extend (text : List Char) (n : Nat) :
    (Utf8.encode (text ++ Decimal.digits n)).length =
      (Utf8.encode text).length + (Decimal.digits n).length := by
  rw [Utf8.encode_append, List.length_append, Utf8.length_encode fun c hc =>
    Decimal.lt_of_isDigit (Decimal.isDigit_of_mem_digits hc)]

/-- Where a segment has room for its name, the segments in front of it have. -/
theorem Reaches.segment_le {id other : UInt64} (h : disk.Reaches (stem.segmentFile id))
    (hle : other ≤ id) : disk.Reaches (stem.segmentFile other) := by
  obtain ⟨front, last, hends⟩ := exists_endsIn_segmentFile stem
  obtain ⟨hnul, hlength, hwalk, hshort⟩ := (reaches_iff_of_endsIn (hends id)).mp h
  -- a smaller id has no more digits
  have hdigits := Decimal.length_digits_mono (UInt64.le_iff_toNat_le.mp hle)
  refine (reaches_iff_of_endsIn (hends other)).mpr ⟨?_, ?_, hwalk, ?_⟩
  · simp only [Path.segmentFile, Path.extend, List.mem_append, not_or] at hnul ⊢
    exact ⟨hnul.1, Decimal.not_mem_digits (by decide) _⟩
  · simp only [Path.segmentFile, Path.extend, length_encode_extend] at hlength ⊢
    omega
  · rw [length_encode_extend] at hshort ⊢
    omega

/-- Where one segment has its name, another one that has room for its name on some disk has it too. -/
theorem Reaches.segment_of_reaches {base : Disk} {id other : UInt64}
    (h : base.Reaches (stem.segmentFile id)) (hother : disk.Reaches (stem.segmentFile other)) :
    base.Reaches (stem.segmentFile other) := by
  obtain ⟨front, last, hends⟩ := exists_endsIn_segmentFile stem
  obtain ⟨-, -, hwalk, -⟩ := (reaches_iff_of_endsIn (hends id)).mp h
  obtain ⟨hnul, hlength, -, hshort⟩ := (reaches_iff_of_endsIn (hends other)).mp hother
  exact (reaches_iff_of_endsIn (hends other)).mpr ⟨hnul, hlength, hwalk, hshort⟩

/-- Where one segment has its name and another path leads to nothing, its name is free. -/
theorem Reaches.segment_of_notFound {id other : UInt64} (h : disk.Reaches (stem.segmentFile id))
    (hmissing : disk.nodeAt (stem.segmentFile other) = .error .notFound) :
    disk.Admits (stem.segmentFile other) ∧ disk.bytesAt (stem.segmentFile other).place = none := by
  obtain ⟨front, last, hends⟩ := exists_endsIn_segmentFile stem
  obtain ⟨hreaches, hvacant⟩ := h.of_notFound (hends id) (hends other) hmissing
  exact ⟨⟨hreaches, by simp [hvacant]⟩, by rw [bytesAt, leaf_of_vacant hvacant]; rfl⟩

end Disk

/-! ## The files of a value log -/

/-- A file of a value log. -/
inductive ValueFile where
  | index
  | range
  | capacity
  | segment (id : UInt64)
  deriving DecidableEq

/-- A segment behind another one is not that one. -/
theorem ValueFile.segment_ne {id other : UInt64} (h : id < other) : segment id ≠ segment other := by
  intro heq
  cases heq
  exact UInt64.lt_irrefl _ h

namespace Config

variable (config : Config)

/-- The path of a file of the value log. -/
def filePath : ValueFile → Path
  | .index => config.indexLog
  | .range => config.rangeFile
  | .capacity => Capacity.file config.rangeFile
  | .segment id => config.segmentFile id

/-- The file beside the index log. -/
def besideIndex : Path := IndexLog.beside config.indexLog

/-- The file beside the range file. -/
def besideRange : Path := config.rangeFile.replaceExtension temporaryExtension

/-- The file beside the capacity file. -/
def besideCapacity : Path := (Capacity.file config.rangeFile).replaceExtension temporaryExtension

/-- The place of a file of the value log. -/
abbrev place (file : ValueFile) : Location := (config.filePath file).place

/-- The names of the value log's files are different, and none is the name of a file beside one. -/
structure Separate : Prop where
  injective : Function.Injective config.place
  besideIndex (file : ValueFile) : config.besideIndex.place ≠ config.place file
  besideRange (file : ValueFile) : config.besideRange.place ≠ config.place file
  besideCapacity (file : ValueFile) : config.besideCapacity.place ≠ config.place file

/-- The names of the value log's files and of those beside them. -/
def ownPlaces : Set Location :=
  Set.range config.place ∪
    {config.besideIndex.place, config.besideRange.place, config.besideCapacity.place}

/-- The names that an open value log writes to whose segments start at `origin`. -/
def sessionPlaces (origin : UInt64) : Set Location :=
  {config.besideRange.place, config.place .index, config.place .range} ∪
    {place | ∃ id, origin ≤ id ∧ config.place (.segment id) = place}

/-- The names that are written to when the range grows by a segment. -/
def growthPlaces (id : UInt64) : Set Location :=
  {config.besideRange.place, config.place .range, config.place (.segment id)}

/-! ## What the files say -/

/-- The bytes of a file of the value log. -/
def fileBytes (disk : Disk) (file : ValueFile) : Option Bytes :=
  disk.bytesAt (config.place file)

/-- The map that the index log amounts to; without a log, the empty map. -/
def indexed (disk : Disk) : AddressMap :=
  IndexLog.replayed disk config.indexLog

/-- The segments in use, if the range file says so. -/
def range? (disk : Disk) : Option SegmentRange :=
  SegmentRange.ofBytes? (config.fileBytes disk .range)

/-- The scan of a segment; a missing segment scans as an empty one. -/
def scan (disk : Disk) (id : UInt64) : Scan :=
  Scan.ofContents config.capacity.toNat
    (.ofBytes ((config.fileBytes disk (.segment id)).getD []))

/-- The records of a segment with their addresses; a missing segment has none. -/
def scannedSegment (disk : Disk) (id : UInt64) : Found :=
  (Scan.recordsIn config.capacity.toNat ((config.fileBytes disk (.segment id)).getD [])).map
    fun (offset, record) => (id.toNat * config.capacity.toNat + offset, record)

/-- The records of these segments, in order, with their addresses. -/
def scanned (disk : Disk) (range : SegmentRange) : Found :=
  range.ids.flatMap (config.scannedSegment disk)

/-- The directories are there, and none stands where a file of the value log goes, or one beside it, or
a segment from `first` on. -/
structure HasRoom (disk : Disk) (first : UInt64) : Prop where
  parent : disk.HasParent config.segmentStem
  index : disk.Admits config.indexLog
  besideIndex : disk.Admits config.besideIndex
  range : disk.Admits config.rangeFile
  besideRange : disk.Admits config.besideRange
  capacity : disk.Admits (Capacity.file config.rangeFile)
  segment (id : UInt64) : first ≤ id → disk.Admits (config.segmentFile id)

/-- No segment from `next` on has a file. -/
def Vacant (disk : Disk) (next : UInt64) : Prop :=
  ∀ id, next ≤ id → config.fileBytes disk (.segment id) = none

variable {config : Config} {disk disk' : Disk}

/-- Two files have two places. -/
theorem Separate.place_ne (h : config.Separate) {file other : ValueFile} (hne : file ≠ other) :
    config.place file ≠ config.place other :=
  fun hsame => hne (h.injective hsame)

/-- Where a session leaves the files of the value log alone. -/
theorem Separate.not_mem_sessionPlaces (h : config.Separate) {origin : UInt64} {file : ValueFile}
    (hindex : file ≠ .index) (hrange : file ≠ .range)
    (hsegment : ∀ id, origin ≤ id → file ≠ .segment id) :
    config.place file ∉ config.sessionPlaces origin := by
  rintro ((hplace | hplace | hplace) | ⟨id, hid, hplace⟩)
  · exact h.besideRange file hplace.symm
  · exact hindex (h.injective hplace)
  · exact hrange (h.injective hplace)
  · exact hsegment id hid (h.injective hplace.symm)

/-- A session leaves the segments in front of its own alone. -/
theorem Separate.segment_not_mem_sessionPlaces (h : config.Separate) {origin id : UInt64}
    (hlt : id < origin) : config.place (.segment id) ∉ config.sessionPlaces origin :=
  h.not_mem_sessionPlaces (by simp) (by simp) fun _ hother =>
    ValueFile.segment_ne (UInt64.lt_of_lt_of_le hlt hother)

/-- Where growth leaves the files of the value log alone. -/
theorem Separate.not_mem_growthPlaces (h : config.Separate) {id : UInt64} {file : ValueFile}
    (hrange : file ≠ .range) (hsegment : file ≠ .segment id) :
    config.place file ∉ config.growthPlaces id := by
  rintro (hplace | hplace | hplace)
  · exact h.besideRange file hplace.symm
  · exact hrange (h.injective hplace)
  · exact hsegment (h.injective hplace)

/-- Where one change to the next segment writes, the session may write. -/
theorem growthPlaces_subset {origin id : UInt64} (h : origin ≤ id) :
    config.growthPlaces id ⊆ config.sessionPlaces origin := by
  rintro place (rfl | rfl | rfl)
  · exact .inl (.inl rfl)
  · exact .inl (.inr (.inr rfl))
  · exact .inr ⟨id, h, rfl⟩

/-- A file that is not at one of the places has the bytes it had. -/
theorem fileBytes_of_changes {start : Disk} {places : Set Location}
    (h : start.Changes places disk) {file : ValueFile} (hfile : config.place file ∉ places) :
    config.fileBytes disk file = config.fileBytes start file :=
  h.bytesAt_eq hfile

/-- With the same leaves, a file has the same bytes. -/
theorem fileBytes_of_leaf_eq (h : disk'.leaf = disk.leaf) (file : ValueFile) :
    config.fileBytes disk' file = config.fileBytes disk file :=
  Disk.bytesAt_of_leaf_eq h _

/-- Room from a segment on is room from a later one on. -/
theorem HasRoom.mono {first first' : UInt64} (h : config.HasRoom disk first) (hle : first ≤ first') :
    config.HasRoom disk first' :=
  { h with segment := fun id hid => h.segment id (UInt64.le_trans hle hid) }

/-- Files may change where there is room, and there is still room. -/
theorem HasRoom.of_changes {places : Set Location} {first : UInt64} (h : config.HasRoom disk first)
    (hchanges : disk.Changes places disk') : config.HasRoom disk' first where
  parent := h.parent.mono hchanges.becomes.keepsDirectories
  index := hchanges.admits_iff.mpr h.index
  besideIndex := hchanges.admits_iff.mpr h.besideIndex
  range := hchanges.admits_iff.mpr h.range
  besideRange := hchanges.admits_iff.mpr h.besideRange
  capacity := hchanges.admits_iff.mpr h.capacity
  segment id hid := hchanges.admits_iff.mpr (h.segment id hid)

/-- Segments that are not there are not made by changes elsewhere. -/
theorem Vacant.of_changes {places : Set Location} {next : UInt64} (h : config.Vacant disk next)
    (hchanges : disk.Changes places disk')
    (hplaces : ∀ id, next ≤ id → config.place (.segment id) ∉ places) : config.Vacant disk' next :=
  fun id hid => (fileBytes_of_changes hchanges (hplaces id hid)).trans (h id hid)

/-- Growth by the next segment takes no file behind it. -/
theorem Vacant.grow {next next' : UInt64} (h : config.Vacant disk next) (hseparate : config.Separate)
    (hnext : next'.toNat = next.toNat + 1) (hchanges : disk.Changes (config.growthPlaces next) disk') :
    config.Vacant disk' next' := by
  intro id hid
  have hlt : next < id := by
    rw [UInt64.le_iff_toNat_le, hnext] at hid
    exact UInt64.lt_iff_toNat_lt.mpr hid
  rw [fileBytes_of_changes hchanges
    (hseparate.not_mem_growthPlaces (by simp) (ValueFile.segment_ne hlt).symm)]
  exact h id (UInt64.le_of_lt hlt)

/-- A record that is found in a segment stands at its offset in it. -/
theorem mem_scannedSegment {id : UInt64} {entry : Nat × Record}
    (h : entry ∈ config.scannedSegment disk id) : ∃ bytes offset,
      config.fileBytes disk (.segment id) = some bytes ∧ offset < config.capacity.toNat ∧
        entry.1 = id.toNat * config.capacity.toNat + offset ∧
        (Contents.ofBytes bytes).recordAt? offset = some entry.2 := by
  obtain ⟨⟨offset, record⟩, hmem, rfl⟩ := List.mem_map.mp h
  cases hbytes : config.fileBytes disk (.segment id) with
  | none =>
    rw [hbytes] at hmem
    -- in no bytes there is no record
    have := (Scan.mem_records_fromOffset hmem).2.2
    rw [Contents.recordAt?_eq] at this
    simp [Record.parse?, Record.takeField?, Bytes.HasAtLeast, Record.lengthWidth] at this
  | some bytes =>
    rw [hbytes] at hmem
    obtain ⟨-, hbelow, hrecord⟩ := Scan.mem_records_fromOffset hmem
    exact ⟨bytes, offset, rfl, hbelow, rfl, hrecord⟩

/-- The records of a segment lie between its address and that of the next one. -/
theorem bounds_of_mem_scannedSegment {id : UInt64} {entry : Nat × Record}
    (h : entry ∈ config.scannedSegment disk id) :
    id.toNat * config.capacity.toNat ≤ entry.1 ∧
      entry.1 < (id.toNat + 1) * config.capacity.toNat := by
  obtain ⟨bytes, offset, -, hbelow, haddress, -⟩ := mem_scannedSegment h
  rw [haddress, Nat.succ_mul]
  omega

/-- What is found in a range is found in one of its segments. -/
theorem mem_scanned_iff {range : SegmentRange} {entry : Nat × Record} :
    entry ∈ config.scanned disk range ↔
      ∃ id, range.first ≤ id ∧ id < range.next ∧ entry ∈ config.scannedSegment disk id := by
  simp only [scanned, List.mem_flatMap, SegmentRange.mem_ids_iff, and_assoc]

/-- The records of the segments in use are in the order of their addresses. -/
theorem ascending_scanned (config : Config) (disk : Disk) (range : SegmentRange) :
    (config.scanned disk range).Ascending := by
  -- within a segment by their offsets, across segments by their ids
  refine List.pairwise_flatMap.mpr ⟨fun id _ => ?_, ?_⟩
  · rw [scannedSegment, List.pairwise_map]
    exact (Scan.pairwise_records_fromOffset _ _ _).imp fun h => Nat.add_lt_add_left h _
  · refine (SegmentRange.pairwise_ids range).imp fun {id other} hlt a ha b hb => ?_
    have hbelow := (bounds_of_mem_scannedSegment ha).2
    have habove := (bounds_of_mem_scannedSegment hb).1
    have hids : id.toNat + 1 ≤ other.toNat := UInt64.lt_iff_toNat_lt.mp hlt
    exact Nat.lt_of_lt_of_le hbelow (Nat.le_trans (Nat.mul_le_mul_right _ hids) habove)

/-- What is found in a segment depends on its bytes alone. -/
theorem scannedSegment_congr {id : UInt64}
    (h : config.fileBytes disk' (.segment id) = config.fileBytes disk (.segment id)) :
    config.scannedSegment disk' id = config.scannedSegment disk id := by
  rw [scannedSegment, h, scannedSegment]

/-- What is found in a range depends on the bytes of its segments alone. -/
theorem scanned_congr {range : SegmentRange} (h : ∀ id, range.first ≤ id → id < range.next →
      config.fileBytes disk' (.segment id) = config.fileBytes disk (.segment id)) :
    config.scanned disk' range = config.scanned disk range := by
  rw [scanned, scanned, List.flatMap, List.flatMap, List.map_congr_left fun id hid => ?_]
  obtain ⟨hfirst, hnext⟩ := SegmentRange.mem_ids_iff.mp hid
  exact scannedSegment_congr (h id hfirst hnext)

/-- What the index log says depends on its bytes alone. -/
theorem indexed_congr (h : config.fileBytes disk' .index = config.fileBytes disk .index) :
    config.indexed disk' = config.indexed disk :=
  congrArg (fun bytes : Option Bytes => IndexLog.replay (bytes.getD [])) h

/-- So does what the range file says. -/
theorem range?_congr (h : config.fileBytes disk' .range = config.fileBytes disk .range) :
    config.range? disk' = config.range? disk :=
  congrArg SegmentRange.ofBytes? h

/-- Nothing is found in a segment that is not there. -/
theorem scannedSegment_of_none {id : UInt64} (h : config.fileBytes disk (.segment id) = none) :
    config.scannedSegment disk id = [] := by
  rw [scannedSegment, h, Option.getD_none, Scan.recordsIn, Scan.ofContents,
    Scan.records_fromOffset, if_pos (.inl (Nat.zero_le _)), List.map_nil]

/-- Nothing is found in an empty segment. -/
theorem scannedSegment_of_nil {id : UInt64} (h : config.fileBytes disk (.segment id) = some []) :
    config.scannedSegment disk id = [] := by
  rw [scannedSegment, h, Option.getD_some, Scan.recordsIn, Scan.ofContents,
    Scan.records_fromOffset, if_pos (.inl (Nat.zero_le _)), List.map_nil]

/-- A range may be scanned in two parts. -/
theorem scanned_append {first middle next : UInt64} (h : first ≤ middle) (h' : middle ≤ next) :
    config.scanned disk ⟨first, next⟩ =
      config.scanned disk ⟨first, middle⟩ ++ config.scanned disk ⟨middle, next⟩ := by
  rw [scanned, SegmentRange.ids_append h h', List.flatMap_append]
  rfl

/-! ## The number log -/

/-- The file beside the number log. -/
def besideNumbers (config : Config) : Path := IndexLog.beside config.numberLog

/-- The name of the number log and of the file beside it. -/
def numberPlaces (config : Config) : Set Location :=
  {config.besideNumbers.place, config.numberLog.place}

/-- The number log and the value log do not write to each other's files. -/
structure Apart (config : Config) : Prop where
  beside : config.besideNumbers.place ≠ config.numberLog.place
  numberLog : config.numberLog.place ∉ config.ownPlaces
  file (file : ValueFile) : config.place file ∉ config.numberPlaces

end Config

end BarrierStore
