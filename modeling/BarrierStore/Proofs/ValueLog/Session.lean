import BarrierStore.Proofs.Config.Files

/-!
# The life of a value log

An open value log and its files keep step. Every record in the segments of the session has its line
in the index log, in the same order, and nothing else was written since the log was opened. A crash may
leave one record more than lines, and ends of either file that count for nothing.

The module introduces:

* `ValueLog.Tracks` — the files of an open log hold these records, with their lines behind those that
  were in the index log before;
* `Config.Remains` — what a crash leaves of a session, and `Config.Growing`, of a segment that is
  being added.

Main statements: `Tracks.rollOver`, `Tracks.append` and `Tracks.store`, each with what a crash in it
leaves.
-/

namespace BarrierStore

open Drive

variable {config : Config} {start : Disk} {during : Disk → Prop}

/-- How far the range and its next segment have come: the range file comes to say `range`, and only
then the segment comes to be there, empty. -/
inductive Config.Growing (config : Config) (start : Disk) (range : SegmentRange) (id : UInt64)
    (disk : Disk) : Prop
  /-- Neither has happened. -/
  | before : config.range? disk = config.range? start →
    config.fileBytes disk (.segment id) = config.fileBytes start (.segment id) →
      Growing config start range id disk
  /-- The segment counts, but nothing was done to it. -/
  | counted : config.range? disk = some range →
    config.fileBytes disk (.segment id) = config.fileBytes start (.segment id) →
      Growing config start range id disk
  /-- The segment is there. -/
  | made : config.range? disk = some range → config.fileBytes disk (.segment id) = some [] →
      Growing config start range id disk

namespace Config.Growing

variable {middle disk : Disk} {range : SegmentRange} {id : UInt64}

theorem congr (h : config.Growing middle range id disk)
    (hsame : ∀ file, config.fileBytes middle file = config.fileBytes start file) :
    config.Growing start range id disk := by
  cases h with
  | before hrange hbytes =>
    exact .before (hrange.trans (range?_congr (hsame .range))) (hbytes.trans (hsame _))
  | counted hrange hbytes => exact .counted hrange (hbytes.trans (hsame _))
  | made hrange hbytes => exact .made hrange hbytes

/-- Where no file was in its way, the segment has no record. -/
theorem scannedSegment_eq (h : config.Growing start range id disk)
    (hvacant : config.fileBytes start (.segment id) = none) :
    config.scannedSegment disk id = [] := by
  cases h with
  | before _ hbytes | counted _ hbytes => exact scannedSegment_of_none (hbytes.trans hvacant)
  | made _ hbytes => exact scannedSegment_of_nil hbytes

end Config.Growing

/-- The range file takes in one more segment, and then the segment is there, empty. -/
theorem achieves_grow (h : start.WellFormed) (hseparate : config.Separate) {range : SegmentRange}
    (horder : range.first ≤ range.next) (id : UInt64)
    (hduring : ∀ disk, start.Changes (config.growthPlaces id) disk →
      config.Growing start range id disk → during disk) :
    Achieves (do range.store config.rangeFile; create (config.segmentFile id)) start during
      (fun file disk => start.Admits config.rangeFile ∧ start.Admits config.besideRange ∧
        start.Admits (config.segmentFile id) ∧ start.Changes (config.growthPlaces id) disk ∧
        config.fileBytes disk .range = some (Utf8.encode range.encode) ∧
        disk.leaf (config.place (.segment id)) = some (file, []))
      (fun _ _ => ¬ (start.Admits config.rangeFile ∧ start.Admits config.besideRange ∧
        start.Admits (config.segmentFile id))) := by
  have hplaces : ({config.besideRange.place, config.place .range} : Set Location) ⊆
      config.growthPlaces id := by
    rintro place (rfl | rfl)
    · exact .inl rfl
    · exact .inr (.inl rfl)
  have hsegment : config.place (.segment id) ∉
      ({config.besideRange.place, config.place .range} : Set Location) := by
    simp [(hseparate.besideRange (.segment id)).symm, hseparate.place_ne]
  -- the range file says the range as soon as it holds its text
  have hsaid : ∀ disk, config.fileBytes disk .range = some (Utf8.encode range.encode) →
      config.range? disk = some range := by
    intro disk hbytes
    rw [Config.range?, hbytes]
    exact SegmentRange.ofBytes?_encode horder
  refine Achieves.bind (m := fun _ disk => start.Admits config.rangeFile ∧
      start.Admits config.besideRange ∧
      start.Changes {config.besideRange.place, config.place .range} disk ∧
      config.fileBytes disk .range = some (Utf8.encode range.encode))
    ((achieves_replaceFile_of_changes h (hseparate.besideRange .range) _ ?_).imp ?_ ?_) ?_
  · intro disk hchanges hbytes
    have hsame := Config.fileBytes_of_changes hchanges hsegment
    refine hduring disk (hchanges.mono hplaces) ?_
    rcases hbytes with hleaf | ⟨-, hbytes⟩
    · exact .before (Config.range?_congr (congrArg (Option.map Prod.snd) hleaf)) hsame
    · exact .counted (hsaid disk hbytes) hsame
  · rintro _ disk - ⟨hadmits, hbeside, hchanges, file, hleaf⟩
    exact ⟨hadmits, hbeside, hchanges, Disk.bytesAt_of_leaf hleaf⟩
  · rintro _ disk - ⟨-, hrefused⟩ ⟨hadmits, hbeside, -⟩
    exact hrefused ⟨hadmits, hbeside⟩
  rintro _ stored hdisk ⟨hadmits, hbeside, hchanges, hbytes⟩
  -- behind the range file the segment is all that changes
  have hcreated : ∀ file disk, stored.Becomes (Function.update stored.leaf
        (config.place (.segment id)) (some (file, []))) disk →
      start.Changes (config.growthPlaces id) disk ∧
        config.fileBytes disk .range = some (Utf8.encode range.encode) ∧
        disk.leaf (config.place (.segment id)) = some (file, []) := by
    intro file disk hbecomes
    refine ⟨(hchanges.mono hplaces).trans (hbecomes.changes_update.mono ?_), ?_, ?_⟩
    · rintro place rfl
      exact .inr (.inr rfl)
    · rw [Config.fileBytes_of_changes hbecomes.changes_update (hseparate.place_ne (by simp)), hbytes]
    · rw [hbecomes.leaf_eq, Function.update_self]
  refine (achieves_create hchanges.wellFormed (config.segmentFile id) hdisk ?_).imp ?_ ?_
  · intro file disk hbecomes
    obtain ⟨hall, hrange, hleaf⟩ := hcreated file disk hbecomes
    exact hduring disk hall (.made (hsaid disk hrange) (Disk.bytesAt_of_leaf hleaf))
  · rintro file disk - ⟨hsegmentAdmits, hbecomes⟩
    exact ⟨hadmits, hbeside, hchanges.admits_iff.mp hsegmentAdmits, hcreated file disk hbecomes⟩
  · rintro fault _ - ⟨rfl, hrefused, -⟩ ⟨-, -, hsegmentAdmits⟩
    exact hrefused (hchanges.admits_iff.mpr hsegmentAdmits)

/-- What a crash leaves of a session whose segments start at `origin`: the lines of some records
behind those of `base`, and the records themselves. -/
structure Config.Remains (config : Config) (start : Disk) (origin first : UInt64)
    (base : List (Bytes × UInt64)) (lined records : Found) (disk : Disk) : Prop where
  changes : start.Changes (config.sessionPlaces origin) disk
  indexed_eq : config.indexed disk = AddressMap.ofEntries (base ++ lined.lines)
  exists_range : ∃ next, origin ≤ next ∧ config.range? disk = some ⟨first, next⟩ ∧
    config.scanned disk ⟨origin, next⟩ = records ∧ config.Vacant disk next

theorem Config.Remains.trans {config : Config} {start middle disk : Disk} {origin first : UInt64}
    {base : List (Bytes × UInt64)} {lined records : Found}
    (hstart : start.Changes (config.sessionPlaces origin) middle)
    (h : config.Remains middle origin first base lined records disk) :
    config.Remains start origin first base lined records disk :=
  ⟨hstart.trans h.changes, h.indexed_eq, h.exists_range⟩

namespace ValueLog

/-- The files of the open log hold these records in the segments from `origin` on, and their lines
behind those of `base`. -/
structure Tracks (config : Config) (log : ValueLog) (disk : Disk) (origin : UInt64)
    (base : List (Bytes × UInt64)) (found : Found) : Prop where
  wellFormed : disk.WellFormed
  capacity_eq : log.capacity = config.capacity
  stem_eq : log.segmentStem = config.segmentStem
  rangeFile_eq : log.rangeFile = config.rangeFile
  path_eq : log.index.path = config.indexLog
  index_leaf : disk.leaf (config.place .index) =
    some (log.index.log, IndexLog.encodeEntries (base ++ found.lines))
  range_bytes : config.fileBytes disk .range = some (Utf8.encode log.range.encode)
  next_eq : log.range.next.toNat = log.active.id.toNat + 1
  first_le : log.range.first ≤ origin
  origin_le : origin ≤ log.active.id
  active_leaf : ∃ bytes, disk.leaf (config.place (.segment log.active.id)) =
    some (log.active.file, bytes) ∧ bytes.length = log.active.length ∧
      Scan.Whole config.capacity.toNat bytes
  scanned_eq : config.scanned disk ⟨origin, log.range.next⟩ = found
  fits : ∀ entry ∈ found, entry.1 < UInt64.size
  reaches : disk.Reaches (config.segmentFile log.active.id)

variable {config : Config} {log : ValueLog} {start : Disk} {origin : UInt64}
  {base : List (Bytes × UInt64)} {found : Found} {during : Disk → Prop}

/-- A log with the stem of the configuration has its segments. -/
theorem segmentFile_eq (h : log.segmentStem = config.segmentStem) (id : UInt64) :
    log.segmentFile id = config.segmentFile id := by
  rw [segmentFile, h, Config.segmentFile]

namespace Tracks

/-- The active segment is in the range. -/
theorem active_lt_next (h : log.Tracks config start origin base found) :
    log.active.id < log.range.next := by
  rw [UInt64.lt_iff_toNat_lt, h.next_eq]
  exact Nat.lt_succ_self _

/-- The active segment is the last one. -/
theorem le_active (h : log.Tracks config start origin base found) {id : UInt64}
    (hid : id < log.range.next) : id ≤ log.active.id := by
  rw [UInt64.lt_iff_toNat_lt, h.next_eq] at hid
  exact UInt64.le_iff_toNat_le.mpr (Nat.le_of_lt_succ hid)

theorem origin_le_next (h : log.Tracks config start origin base found) :
    origin ≤ log.range.next :=
  UInt64.le_trans h.origin_le (UInt64.le_of_lt h.active_lt_next)

/-- The segments in front of the session have names that are no longer than its own. -/
theorem reaches_of_lt (h : log.Tracks config start origin base found) {id : UInt64}
    (hid : id < origin) : start.Reaches (config.segmentFile id) :=
  h.reaches.segment_le (UInt64.le_trans (UInt64.le_of_lt hid) h.origin_le)

/-- The range file has the range of the log. -/
theorem range?_eq (h : log.Tracks config start origin base found) :
    config.range? start = some log.range := by
  rw [Config.range?, h.range_bytes]
  exact SegmentRange.ofBytes?_encode (UInt64.le_trans h.first_le h.origin_le_next)

/-- The index log says what was found in front, and what was written since. -/
theorem indexed_eq (h : log.Tracks config start origin base found) :
    config.indexed start = AddressMap.ofEntries (base ++ found.lines) := by
  rw [← IndexLog.replay_encodeEntries]
  exact IndexLog.replayed_of_leaf h.index_leaf

/-- The records of the session are those in front of the active segment and those in it. -/
theorem scanned_split (h : log.Tracks config start origin base found) (disk : Disk) :
    config.scanned disk ⟨origin, log.range.next⟩ =
      config.scanned disk ⟨origin, log.active.id⟩ ++
        config.scannedSegment disk log.active.id := by
  rw [Config.scanned_append h.origin_le (UInt64.le_of_lt h.active_lt_next), Config.scanned,
    Config.scanned, SegmentRange.ids_single h.next_eq, List.flatMap_cons, List.flatMap_nil,
    List.append_nil]

/-- Other files may change under an open log. -/
theorem of_changes (h : log.Tracks config start origin base found) {disk : Disk}
    {places : Set Location} (hchanges : start.Changes places disk)
    (hindex : config.place .index ∉ places) (hrange : config.place .range ∉ places)
    (hsegment : ∀ id, origin ≤ id → config.place (.segment id) ∉ places) :
    log.Tracks config disk origin base found :=
  { h with
    wellFormed := hchanges.wellFormed
    index_leaf := (hchanges.leaf_eq hindex).trans h.index_leaf
    range_bytes := (Config.fileBytes_of_changes hchanges hrange).trans h.range_bytes
    active_leaf := by
      rw [hchanges.leaf_eq (hsegment _ h.origin_le)]
      exact h.active_leaf
    scanned_eq := by
      rw [← h.scanned_eq]
      exact Config.scanned_congr fun id hid _ =>
        Config.fileBytes_of_changes hchanges (hsegment id hid)
    reaches := hchanges.reaches_iff.mpr h.reaches }

/-- A crash between two operations leaves what the log tracks. -/
theorem remains (h : log.Tracks config start origin base found)
    (hvacant : config.Vacant start log.range.next) :
    config.Remains start origin log.range.first base found found start :=
  ⟨.refl h.wellFormed, h.indexed_eq, log.range.next, h.origin_le_next, h.range?_eq, h.scanned_eq,
    hvacant⟩

/-! ## Sealing a segment -/

/-- The range may grow over segments without records. -/
theorem scanned_grow (h : log.Tracks config start origin base found) {disk : Disk}
    {places : Set Location} {next : UInt64} (hchanges : start.Changes places disk)
    (hsegment : ∀ id, id < log.range.next → config.place (.segment id) ∉ places)
    (hle : log.range.next ≤ next)
    (hempty : ∀ id, log.range.next ≤ id → id < next → config.scannedSegment disk id = []) :
    config.scanned disk ⟨origin, next⟩ = found := by
  have hbehind : config.scanned disk ⟨log.range.next, next⟩ = [] := by
    refine List.flatMap_eq_nil_iff.mpr fun id hid => ?_
    obtain ⟨hfirst, hnext⟩ := SegmentRange.mem_ids_iff.mp hid
    exact hempty id hfirst hnext
  rw [Config.scanned_append h.origin_le_next hle, hbehind, List.append_nil, ← h.scanned_eq]
  exact Config.scanned_congr fun id _ hid =>
    Config.fileBytes_of_changes hchanges (hsegment id hid)

theorem remains_of_range (h : log.Tracks config start origin base found) {disk : Disk}
    {places : Set Location} {next : UInt64} (hchanges : start.Changes places disk)
    (hplaces : places ⊆ config.sessionPlaces origin) (hindex : config.place .index ∉ places)
    (hsegment : ∀ id, id < log.range.next → config.place (.segment id) ∉ places)
    (hrange : config.range? disk = some ⟨log.range.first, next⟩) (hle : log.range.next ≤ next)
    (hempty : ∀ id, log.range.next ≤ id → id < next → config.scannedSegment disk id = [])
    (hvacant : config.Vacant disk next) :
    config.Remains start origin log.range.first base found found disk where
  changes := hchanges.mono hplaces
  indexed_eq := by
    have hleaf : disk.leaf config.indexLog.place = _ :=
      (hchanges.leaf_eq hindex).trans h.index_leaf
    rw [Config.indexed, IndexLog.replayed_of_leaf hleaf, IndexLog.replay_encodeEntries]
  exists_range := ⟨next, UInt64.le_trans h.origin_le_next hle, hrange,
    h.scanned_grow hchanges hsegment hle hempty, hvacant⟩

section Growth

variable {range : SegmentRange} {disk : Disk}

/-- The next segment counts before and after it is there, and has no record. -/
theorem remains_of_growth (h : log.Tracks config start origin base found)
    (hseparate : config.Separate) (hvacant : config.Vacant start log.range.next)
    (hfirst : range.first = log.range.first)
    (hnext : range.next.toNat = log.range.next.toNat + 1)
    (hchanges : start.Changes (config.growthPlaces log.range.next) disk)
    (hgrowing : config.Growing start range log.range.next disk) :
    config.Remains start origin log.range.first base found found disk := by
  have hindex : config.place .index ∉ config.growthPlaces log.range.next :=
    hseparate.not_mem_growthPlaces (by simp) (by simp)
  have hsegment : ∀ id, id < log.range.next →
      config.place (.segment id) ∉ config.growthPlaces log.range.next := fun id hid =>
    hseparate.not_mem_growthPlaces (by simp) (ValueFile.segment_ne hid)
  have hempty := hgrowing.scannedSegment_eq (hvacant _ (UInt64.le_refl _))
  have hplaces := @Config.growthPlaces_subset config _ _ h.origin_le_next
  -- once the range counts, the next segment has no record
  have hgrown : config.range? disk = some range →
      config.Remains start origin log.range.first base found found disk := by
    intro hrange
    refine h.remains_of_range hchanges hplaces hindex hsegment (hfirst ▸ hrange) (SegmentRange.le_next hnext)
      (fun id hid hid' => ?_) (hvacant.grow hseparate hnext hchanges)
    rw [SegmentRange.eq_of_lt_next hnext hid hid']
    exact hempty
  cases hgrowing with
  | before hrange hbytes =>
    refine h.remains_of_range hchanges hplaces hindex hsegment (hrange.trans h.range?_eq)
      (UInt64.le_refl _)
      (fun id hid hid' => absurd (UInt64.lt_of_lt_of_le hid' hid) (UInt64.lt_irrefl _)) ?_
    intro id hid
    by_cases heq : id = log.range.next
    · rw [heq, hbytes]
      exact hvacant _ (UInt64.le_refl _)
    · rw [Config.fileBytes_of_changes hchanges
        (hseparate.not_mem_growthPlaces (by simp) (by simpa using heq))]
      exact hvacant id hid
  | counted hrange | made hrange => exact hgrown hrange

/-- The log goes on in the next segment. -/
theorem tracks_of_growth (h : log.Tracks config start origin base found)
    (hseparate : config.Separate) (hfirst : range.first = log.range.first)
    (hnext : range.next.toNat = log.range.next.toNat + 1)
    (hchanges : start.Changes (config.growthPlaces log.range.next) disk)
    (hreaches : start.Reaches (config.segmentFile log.range.next))
    (hrange : config.fileBytes disk .range = some (Utf8.encode range.encode)) {file : FileId}
    (hleaf : disk.leaf (config.place (.segment log.range.next)) = some (file, [])) :
    Tracks config { log with range, active := ⟨log.range.next, file, 0⟩ } disk origin base found :=
  { h with
    wellFormed := hchanges.wellFormed
    index_leaf :=
      (hchanges.leaf_eq (hseparate.not_mem_growthPlaces (by simp) (by simp))).trans h.index_leaf
    range_bytes := hrange
    next_eq := hnext
    first_le := hfirst ▸ h.first_le
    origin_le := h.origin_le_next
    active_leaf := ⟨[], hleaf, rfl, Scan.whole_nil _⟩
    scanned_eq := by
      refine h.scanned_grow hchanges (fun id hid => ?_) (SegmentRange.le_next hnext)
        fun id hid hid' => ?_
      · exact hseparate.not_mem_growthPlaces (by simp) (ValueFile.segment_ne hid)
      · obtain rfl := SegmentRange.eq_of_lt_next hnext hid hid'
        exact Config.scannedSegment_of_nil (Disk.bytesAt_of_leaf hleaf)
    reaches := hchanges.reaches_iff.mpr hreaches }

end Growth

/-- A sealed segment stays as it is, and the next one is empty. -/
theorem rollOver (h : log.Tracks config start origin base found) (hseparate : config.Separate)
    (hduring : ∀ disk, (config.Vacant start log.range.next →
      config.Remains start origin log.range.first base found found disk) → during disk) :
    Achieves log.rollOver start during
      (fun log' disk => log'.index = log.index ∧ log'.range.first = log.range.first ∧
        log'.active.length = 0 ∧ log.range.next ≤ log'.range.next ∧
        start.Changes (config.sessionPlaces origin) disk ∧
        (config.Vacant start log.range.next → config.Vacant disk log'.range.next) ∧
        log'.Tracks config disk origin base found)
      (fun fault _ => start.Admits config.rangeFile ∧ start.Admits config.besideRange ∧
        start.Admits (config.segmentFile log.range.next) → fault = .arithmetic) := by
  have hbefore : ∀ disk, start.Changes ∅ disk → during disk := by
    intro disk hchanges
    refine hduring disk fun hvacant => ?_
    have htracks := h.of_changes hchanges (by simp) (by simp) (by simp)
    exact (htracks.remains (hvacant.of_changes hchanges (by simp))).trans (hchanges.mono (by simp))
  refine Achieves.bind (achieves_lift (meets_sync h.wellFormed log.active.file fun disk hsame =>
    hbefore disk (hsame.changes fun _ _ => rfl))) ?_
  rintro _ synced hdisk hsame
  have hsynced : ∀ {places : Set Location}, start.Changes places synced :=
    hsame.changes fun _ _ => rfl
  split
  case h_2 => exact achieves_throw hdisk fun _ => rfl
  rename_i range hgrow
  obtain ⟨hfirst, hnext⟩ := SegmentRange.of_grow? hgrow
  have horder : range.first ≤ range.next := by
    rw [hfirst]
    exact UInt64.le_trans h.first_le (UInt64.le_trans h.origin_le_next (SegmentRange.le_next hnext))
  -- growing and creating belong together, as `achieves_grow` has them
  have hprogram : (do
      range.store log.rangeFile
      let id := log.range.next
      let file ← create (log.segmentFile id)
      return { log with range, active := { id, file, length := 0 } } : DiskM ValueLog) =
      (do range.store config.rangeFile; create (config.segmentFile log.range.next)) >>=
        fun file => return { log with
          range, active := { id := log.range.next, file, length := 0 } } := by
    simp only [segmentFile_eq h.stem_eq, h.rangeFile_eq, bind_assoc]
  rw [hprogram]
  have hbytes : ∀ file, config.fileBytes synced file = config.fileBytes start file := fun file =>
    Config.fileBytes_of_changes hsynced (Set.notMem_empty _)
  refine Achieves.bind
    ((achieves_grow hsame.wellFormed hseparate horder log.range.next ?_).imp_failed ?_) ?_
  · exact fun disk hchanges hgrowing => hduring disk fun hvacant =>
      h.remains_of_growth hseparate hvacant hfirst hnext (hsynced.trans hchanges)
        (hgrowing.congr hbytes)
  · rintro fault disk - hrefused ⟨hadmits, hbeside, hsegment⟩
    exact absurd ⟨hsame.admits_iff.mpr hadmits, hsame.admits_iff.mpr hbeside,
      hsame.admits_iff.mpr hsegment⟩ hrefused
  rintro file disk hdisk' ⟨-, -, hsegment, hchanges, hrange, hleaf⟩
  have hchanges := hsynced.trans hchanges
  refine achieves_pure hdisk' ⟨rfl, hfirst, rfl, SegmentRange.le_next hnext,
    hchanges.mono (Config.growthPlaces_subset h.origin_le_next),
    fun hvacant => hvacant.grow hseparate hnext hchanges,
    h.tracks_of_growth hseparate hfirst hnext hchanges
      (hsame.reaches_iff.mp hsegment.toReaches) hrange hleaf⟩

/-! ## Appending a record -/

/-- What is there of the last record: nothing, the record, or the record and its line. -/
inductive Appending (found : Found) (entry : Nat × Record) : (lined records : Found) → Prop
  | before : Appending found entry found found
  | unlined : Appending found entry found (found ++ [entry])
  | lined : Appending found entry (found ++ [entry]) (found ++ [entry])

/-- The names that an append writes to. -/
def appendPlaces (config : Config) (log : ValueLog) : Set Location :=
  {config.place .index, config.place (.segment log.active.id)}

/-- A record and its line are written where the session writes. -/
theorem appendPlaces_subset (h : log.Tracks config start origin base found) :
    appendPlaces config log ⊆ config.sessionPlaces origin := by
  rintro place (rfl | rfl)
  · exact .inl (.inr (.inl rfl))
  · exact .inr ⟨log.active.id, h.origin_le, rfl⟩

theorem not_mem_appendPlaces (hseparate : config.Separate) {file : ValueFile}
    (hindex : file ≠ .index) (hsegment : file ≠ .segment log.active.id) :
    config.place file ∉ appendPlaces config log := by
  rintro (hplace | hplace)
  · exact hindex (hseparate.injective hplace)
  · exact hsegment (hseparate.injective hplace)

/-- A record that is appended makes no segment. -/
theorem vacant_of_append (h : log.Tracks config start origin base found)
    (hseparate : config.Separate) {disk : Disk}
    (hchanges : start.Changes (appendPlaces config log) disk)
    (hvacant : config.Vacant start log.range.next) : config.Vacant disk log.range.next := by
  refine hvacant.of_changes hchanges fun id hid => not_mem_appendPlaces hseparate (by simp) ?_
  exact (ValueFile.segment_ne (UInt64.lt_of_lt_of_le h.active_lt_next hid)).symm

theorem remains_of_append (h : log.Tracks config start origin base found)
    (hseparate : config.Separate) {disk : Disk} {lined records : Found}
    (hchanges : start.Changes (appendPlaces config log) disk)
    (hindexed : config.indexed disk = AddressMap.ofEntries (base ++ lined.lines))
    (hscanned : config.scanned disk ⟨origin, log.range.next⟩ = records)
    (hvacant : config.Vacant start log.range.next) :
    config.Remains start origin log.range.first base lined records disk where
  changes := hchanges.mono h.appendPlaces_subset
  indexed_eq := hindexed
  exists_range := by
    refine ⟨log.range.next, h.origin_le_next, ?_, hscanned,
      h.vacant_of_append hseparate hchanges hvacant⟩
    rw [Config.range?, Config.fileBytes_of_changes hchanges
      (not_mem_appendPlaces hseparate (by simp) (by simp))]
    exact h.range?_eq

/-- What stands in the active segment is all that the session has behind the sealed ones. -/
theorem scanned_of_append (h : log.Tracks config start origin base found)
    (hseparate : config.Separate) {disk : Disk} {file : FileId} {bytes : Bytes}
    (hchanges : start.Changes (appendPlaces config log) disk)
    (hleaf : disk.leaf (config.place (.segment log.active.id)) = some (file, bytes)) :
    config.scanned disk ⟨origin, log.range.next⟩ =
      config.scanned start ⟨origin, log.active.id⟩ ++
        (Scan.recordsIn config.capacity.toNat bytes).map fun (offset, record) =>
          (log.active.id.toNat * config.capacity.toNat + offset, record) := by
  have hbytes : config.fileBytes disk (.segment log.active.id) = some bytes :=
    Disk.bytesAt_of_leaf hleaf
  rw [h.scanned_split disk, Config.scannedSegment, hbytes, Option.getD_some]
  congr 1
  refine Config.scanned_congr fun id _ hid => Config.fileBytes_of_changes hchanges ?_
  exact not_mem_appendPlaces hseparate (by simp) (ValueFile.segment_ne hid)

/-- Both files that an append writes to hold these bytes, and no other file has changed. -/
structure Written (config : Config) (log : ValueLog) (start : Disk) (lines records : Bytes)
    (disk : Disk) : Prop where
  changes : start.Changes (appendPlaces config log) disk
  index_leaf : disk.leaf (config.place .index) = some (log.index.log, lines)
  active_leaf : disk.leaf (config.place (.segment log.active.id)) = some (log.active.file, records)

section Written

variable {lines lines' records : Bytes} {middle disk : Disk}

/-- The first write goes to the active segment. -/
theorem Written.of_record (h : log.Tracks config start origin base found)
    (hseparate : config.Separate)
    (hbecomes : start.Becomes (Function.update start.leaf (config.place (.segment log.active.id))
      (some (log.active.file, records))) disk) :
    Written config log start (IndexLog.encodeEntries (base ++ found.lines)) records disk where
  changes := hbecomes.changes_update.mono (Set.singleton_subset_iff.mpr (.inr rfl))
  index_leaf := by
    rw [hbecomes.leaf_eq, Function.update_of_ne (hseparate.place_ne (by simp)), h.index_leaf]
  active_leaf := by rw [hbecomes.leaf_eq, Function.update_self]

/-- The second one goes to the index log. -/
theorem Written.line (h : Written config log start lines records middle)
    (hseparate : config.Separate)
    (hbecomes : middle.Becomes (Function.update middle.leaf (config.place .index)
      (some (log.index.log, lines'))) disk) : Written config log start lines' records disk where
  changes := h.changes.trans (hbecomes.changes_update.mono (Set.singleton_subset_iff.mpr (.inl rfl)))
  index_leaf := by rw [hbecomes.leaf_eq, Function.update_self]
  active_leaf := by
    rw [hbecomes.leaf_eq, Function.update_of_ne (hseparate.place_ne (by simp)), h.active_leaf]

/-- The index log says what its whole lines do. -/
theorem Written.indexed_eq {list : List (Bytes × UInt64)} {tail : Bytes}
    (h : Written config log start (IndexLog.encodeEntries list ++ tail) records disk)
    (htail : Line.newline ∉ tail) : config.indexed disk = AddressMap.ofEntries list := by
  rw [← IndexLog.replay_encodeEntries_append list htail]
  exact IndexLog.replayed_of_leaf h.index_leaf

end Written

section Append

variable {record : Record} {bytes : Bytes} {address : UInt64}
  (h : log.Tracks config start origin base found) (hseparate : config.Separate)
  (hsmall : record.Small) (hroom : log.active.length < config.capacity.toNat)
  (hleaf : start.leaf (config.place (.segment log.active.id)) = some (log.active.file, bytes))
  (hlength : bytes.length = log.active.length) (hwhole : Scan.Whole config.capacity.toNat bytes)
  (haddress : log.active.id.toNat * config.capacity.toNat + log.active.length = address.toNat)
  (hduring : ∀ address lined records disk, address < UInt64.size →
    Appending found (address, record) lined records →
    (config.Vacant start log.range.next →
      config.Remains start origin log.range.first base lined records disk) → during disk)

include h hseparate hsmall hroom hleaf hlength hwhole haddress

/-- A write to the active segment that was cut short has the record as a whole or not at all. -/
theorem scanned_of_write {lines : Bytes} {disk : Disk} {count : Nat}
    (hwritten : Written config log start lines (bytes ++ record.encode.take count) disk) :
    config.scanned disk ⟨origin, log.range.next⟩ =
      if count < record.length then found else found ++ [(address.toNat, record)] := by
  have hfound := h.scanned_of_append hseparate (.refl h.wellFormed) hleaf
  rw [h.scanned_eq] at hfound
  rw [h.scanned_of_append hseparate hwritten.changes hwritten.active_leaf]
  split
  · rename_i hcut
    -- a record that was cut short is none
    rw [hwhole.append_cut hsmall hcut, ← hfound]
  · rename_i hall
    rw [List.take_of_length_le (by rw [Record.length_encode]; omega),
      (hwhole.append (by omega) hsmall).2, List.map_append, ← List.append_assoc, ← hfound, hlength,
      ← haddress]
    rfl

/-- Behind the write of a record it is there. -/
theorem scanned_of_record {lines : Bytes} {disk : Disk}
    (hwritten : Written config log start lines (bytes ++ record.encode) disk) :
    config.scanned disk ⟨origin, log.range.next⟩ = found ++ [(address.toNat, record)] := by
  have hall : record.encode.take record.length = record.encode :=
    List.take_of_length_le (Nat.le_of_eq record.length_encode)
  rw [← hall] at hwritten
  rw [h.scanned_of_write hseparate hsmall hroom hleaf hlength hwhole haddress hwritten,
    if_neg (Nat.lt_irrefl _)]

/-- The line of a record comes behind those that the index log has. -/
theorem tracks_of_written {disk : Disk} (hwritten : Written config log start
      (IndexLog.encodeEntries (base ++ Found.lines (found ++ [(address.toNat, record)])))
      (bytes ++ record.encode) disk) :
    Tracks config { log with
      index := { log.index with staged := log.index.staged.insert record.key address }
      active := { log.active with length := log.active.length + record.length } }
      disk origin base (found ++ [(address.toNat, record)]) :=
  { h with
    wellFormed := hwritten.changes.wellFormed
    index_leaf := hwritten.index_leaf
    range_bytes := by
      rw [Config.fileBytes_of_changes hwritten.changes
        (not_mem_appendPlaces hseparate (by simp) (by simp))]
      exact h.range_bytes
    active_leaf := ⟨_, hwritten.active_leaf, by simp [hlength],
      (hwhole.append (by omega) hsmall).1⟩
    scanned_eq := h.scanned_of_record hseparate hsmall hroom hleaf hlength hwhole haddress hwritten
    fits := List.forall_mem_append.mpr ⟨h.fits, List.forall_mem_singleton.mpr address.toNat_lt⟩
    reaches := hwritten.changes.reaches_iff.mpr h.reaches }

include hduring

/-- The record is written; a crash leaves the record or nothing of it. -/
theorem meets_record :
    Meets (Drive.write log.active.file log.active.length record.encode) start during fun _ disk =>
      Written config log start (IndexLog.encodeEntries (base ++ found.lines))
        (bytes ++ record.encode) disk := by
  refine (meets_write_end h.wellFormed hleaf hlength.symm record.encode ?_).imp
    fun _ disk _ hbecomes => .of_record h hseparate hbecomes
  intro count disk hbecomes
  have hwritten := Written.of_record h hseparate hbecomes
  have hrecords := h.scanned_of_write hseparate hsmall hroom hleaf hlength hwhole haddress hwritten
  have hindexed : config.indexed disk = AddressMap.ofEntries (base ++ found.lines) := by
    rw [← List.append_nil (IndexLog.encodeEntries _)] at hwritten
    exact hwritten.indexed_eq List.not_mem_nil
  split at hrecords
  · -- of the record a part is there, which does not count
    exact hduring 0 _ _ disk (by decide) .before
      (h.remains_of_append hseparate hwritten.changes hindexed hrecords)
  · -- the record is there as a whole, but not its line
    exact hduring _ _ _ disk address.toNat_lt .unlined
      (h.remains_of_append hseparate hwritten.changes hindexed hrecords)

/-- Behind the record its line is written; a crash leaves the line or nothing that counts. -/
theorem meets_line {middle : Disk} (hmiddle : Written config log start
      (IndexLog.encodeEntries (base ++ found.lines)) (bytes ++ record.encode) middle) :
    Meets (log.index.put record.key address) middle during fun index disk =>
      index = { log.index with staged := log.index.staged.insert record.key address } ∧
        Written config log start
          (IndexLog.encodeEntries (base ++ Found.lines (found ++ [(address.toNat, record)])))
          (bytes ++ record.encode) disk := by
  have hline : IndexLog.encodeEntries (base ++ found.lines) ++ Line.encode record.key address =
      IndexLog.encodeEntries (base ++ Found.lines (found ++ [(address.toNat, record)])) := by
    rw [Found.lines_append, ← List.append_assoc, IndexLog.encodeEntries_append]
    simp [IndexLog.encodeEntries, Found.lines, Found.line]
  have hplace : log.index.path.place = config.place .index := by
    rw [h.path_eq]
    rfl
  have hindexLeaf := hmiddle.index_leaf
  rw [← hplace] at hindexLeaf
  refine (Index.meets_put hmiddle.changes.wellFormed hindexLeaf record.key address ?_).imp ?_
  · intro count disk hbecomes
    rw [hplace] at hbecomes
    have hwritten := hmiddle.line hseparate hbecomes
    have hrecords := h.scanned_of_record hseparate hsmall hroom hleaf hlength hwhole haddress hwritten
    by_cases hcut : count < (Line.encode record.key address).length
    · -- a line without its newline does not count
      have hindexed := hwritten.indexed_eq (IndexLog.newline_not_mem_take _ _ hcut)
      exact hduring _ _ _ disk address.toNat_lt .unlined
        (h.remains_of_append hseparate hwritten.changes hindexed hrecords)
    · rw [List.take_of_length_le (by omega), hline, ← List.append_nil (IndexLog.encodeEntries _)]
        at hwritten
      exact hduring _ _ _ disk address.toNat_lt .lined
        (h.remains_of_append hseparate hwritten.changes (hwritten.indexed_eq List.not_mem_nil)
          hrecords)
  · rintro index disk - ⟨rfl, hbecomes⟩
    rw [hplace, hline] at hbecomes
    exact ⟨rfl, hmiddle.line hseparate hbecomes⟩

end Append

/-- A record comes to the end of the active segment, and its line to the end of the index log. -/
theorem append (h : log.Tracks config start origin base found) (hseparate : config.Separate)
    {record : Record} (hsmall : record.Small)
    (hroom : log.active.length < config.capacity.toNat)
    (hduring : ∀ address lined records disk, address < UInt64.size →
      Appending found (address, record) lined records →
      (config.Vacant start log.range.next →
        config.Remains start origin log.range.first base lined records disk) → during disk) :
    Achieves (log.append record) start during
      (fun log' disk => ∃ address, log'.range = log.range ∧
        log'.index.applied = log.index.applied ∧
        log'.index.staged = log.index.staged.insert record.key (UInt64.ofNat address) ∧
        start.Changes (config.sessionPlaces origin) disk ∧
        (config.Vacant start log.range.next → config.Vacant disk log'.range.next) ∧
        log'.Tracks config disk origin base (found ++ [(address, record)]))
      (fun fault _ => fault = .arithmetic) := by
  obtain ⟨bytes, hleaf, hlength, hwhole⟩ := h.active_leaf
  have hbefore : during start := hduring 0 found found start (by decide) .before h.remains
  unfold ValueLog.append
  dsimp only
  split
  case h_2 => exact achieves_throw hbefore rfl
  rename_i address haddress
  rw [h.capacity_eq, Position.address?_eq_some_iff] at haddress
  -- the record comes first, and its line behind it
  refine Achieves.bind (achieves_lift (h.meets_record hseparate hsmall hroom hleaf hlength hwhole
    haddress hduring)) ?_
  rintro _ middle - hmiddle
  refine Achieves.bind (achieves_lift (h.meets_line hseparate hsmall hroom hleaf hlength hwhole
    haddress hduring hmiddle)) ?_
  rintro index disk hdisk ⟨rfl, hwritten⟩
  exact achieves_pure hdisk ⟨address.toNat, rfl, rfl, by rw [UInt64.ofNat_toNat],
    hwritten.changes.mono h.appendPlaces_subset, h.vacant_of_append hseparate hwritten.changes,
    h.tracks_of_written hseparate hsmall hroom hleaf hlength hwhole haddress hwritten⟩

/-- There is room for the next record to start below the capacity. -/
theorem makeRoom (h : log.Tracks config start origin base found) (hseparate : config.Separate)
    (hcapacity : config.capacity ≠ 0) {length : Nat} (hlength : 0 < length)
    (hduring : ∀ disk, (config.Vacant start log.range.next →
      config.Remains start origin log.range.first base found found disk) → during disk) :
    Achieves (log.makeRoom length) start during
      (fun log' disk => log'.index = log.index ∧ log'.range.first = log.range.first ∧
        log'.active.length < config.capacity.toNat ∧ log.range.next ≤ log'.range.next ∧
        start.Changes (config.sessionPlaces origin) disk ∧
        (config.Vacant start log.range.next → config.Vacant disk log'.range.next) ∧
        log'.Tracks config disk origin base found)
      (fun fault _ => start.Admits config.rangeFile ∧ start.Admits config.besideRange ∧
        start.Admits (config.segmentFile log.range.next) → fault = .arithmetic) := by
  have hpos := Position.capacity_pos hcapacity
  unfold ValueLog.makeRoom
  split
  · refine (h.rollOver hseparate hduring).imp_done ?_
    rintro log' disk - ⟨hindex, hfirst, hempty, hrest⟩
    exact ⟨hindex, hfirst, by omega, hrest⟩
  · rename_i hroom
    refine achieves_pure (hduring start h.remains) ⟨rfl, rfl, ?_, UInt64.le_refl _,
      .refl h.wellFormed, fun hvacant => hvacant, h⟩
    simp only [isFull, h.capacity_eq, decide_eq_true_eq, not_and, Nat.not_lt] at hroom
    omega

/-- A record is stored where there is room for it. -/
theorem store (h : log.Tracks config start origin base found) (hseparate : config.Separate)
    (hcapacity : config.capacity ≠ 0) {record : Record} (hsmall : record.Small)
    (hduring : ∀ address lined records disk, address < UInt64.size →
      Appending found (address, record) lined records →
      (config.Vacant start log.range.next →
        config.Remains start origin log.range.first base lined records disk) → during disk) :
    Achieves (log.store record) start during
      (fun log' disk => ∃ address, log'.range.first = log.range.first ∧
        log.range.next ≤ log'.range.next ∧ log'.index.applied = log.index.applied ∧
        log'.index.staged = log.index.staged.insert record.key (UInt64.ofNat address) ∧
        start.Changes (config.sessionPlaces origin) disk ∧
        (config.Vacant start log.range.next → config.Vacant disk log'.range.next) ∧
        log'.Tracks config disk origin base (found ++ [(address, record)]))
      (fun fault _ => config.HasRoom start log.range.next → fault = .arithmetic) := by
  refine Achieves.bind ((h.makeRoom hseparate hcapacity record.length_pos fun disk =>
    hduring 0 found found disk (by decide) .before).imp_failed ?_) ?_
  · intro fault _ _ hfault hroom
    exact hfault ⟨hroom.range, hroom.besideRange, hroom.segment _ (UInt64.le_refl _)⟩
  rintro sealed disk - ⟨hindex, hfirst, hlength, hnext, hchanges, hvacant, htracks⟩
  refine (htracks.append hseparate hsmall hlength ?_).imp ?_ ?_
  · intro address lined records last hfits happending hremains
    -- what a crash leaves behind the roll over is left behind both
    refine hduring address lined records last hfits happending fun hclear => ?_
    rw [← hfirst]
    exact (hremains (hvacant hclear)).trans hchanges
  · rintro log' last - ⟨address, hrange, happlied, hstaged, hchanges', hvacant', htracks'⟩
    rw [hindex] at happlied hstaged
    exact ⟨address, by rw [hrange, hfirst], by rw [hrange]; exact hnext, happlied, hstaged,
      hchanges.trans hchanges', fun hclear => hvacant' (hvacant hclear), htracks'⟩
  · exact fun _ _ _ hfault _ => hfault

end Tracks

end ValueLog

end BarrierStore
