import BarrierStore.Proofs.Disk.Medium
import BarrierStore.Proofs.ValueLog.Bindings

/-!
# The segments of a session

The segments that an open value log writes are in good order: each of them consists of whole records that
start below the capacity, and is no longer than the capacity unless it is a single record; and those
that are sealed have reached the medium. The range file and the capacity file have reached the medium at
every moment, and the range file never goes back.

The module introduces:

* `Scan.Shaped` — the bytes are such records;
* `ValueLog.Orderly` — the segments of an open log are in good order;
* `Config.Recorded` — the two small files are on the medium, and the next segment is not below a given
  one; `Config.Guards`, this lasts from one disk to another, and no segment below comes to be.

Main statements: `Orderly.rollOver`, `Orderly.append`, `Orderly.makeRoom`, `Orderly.put` and
`ValueLog.spares_sync`.
-/

namespace BarrierStore

open Drive

namespace Scan

/-- The bytes are records that a scan finds, no longer than the capacity or a single one. -/
def Shaped (capacity : Nat) (bytes : Bytes) : Prop :=
  Whole capacity bytes ∧ (bytes.length ≤ capacity ∨ (recordsIn capacity bytes).length = 1)

theorem shaped_nil (capacity : Nat) : Shaped capacity [] :=
  ⟨whole_nil capacity, .inl (Nat.zero_le _)⟩

/-- A record that fits, or is the first, leaves a segment in shape. -/
theorem Shaped.append {capacity : Nat} {bytes : Bytes} (h : Shaped capacity bytes)
    (hbelow : bytes.length < capacity) {record : Record} (hsmall : record.Small)
    (hfits : 0 < bytes.length → bytes.length + record.length ≤ capacity) :
    Shaped capacity (bytes ++ record.encode) := by
  obtain ⟨hwhole, hrecords⟩ := h.1.append hbelow hsmall
  refine ⟨hwhole, ?_⟩
  by_cases hfirst : 0 < bytes.length
  · left
    rw [List.length_append, Record.length_encode]
    exact hfits hfirst
  · right
    obtain rfl : bytes = [] := List.eq_nil_of_length_eq_zero (by omega)
    -- in no bytes there was no record
    have hnone : recordsIn capacity [] = [] := by
      rw [recordsIn, ofContents, records_fromOffset, if_pos (.inl (Nat.zero_le _))]
    rw [hrecords, hnone]
    rfl

end Scan

namespace Config

/-- The range file and the capacity file are on the medium, and the next segment is not below `least`. -/
structure Recorded (config : Config) (least : UInt64) (disk : Disk) : Prop where
  firm_range : disk.Firm (config.place .range)
  firm_capacity : disk.Firm (config.place .capacity)
  exists_range : ∃ range, config.range? disk = some range ∧ least ≤ range.next

/-- If the two files were on the medium, they still are, and the range has not gone back; and no segment
below `least` has come to be. -/
structure Guards (config : Config) (least : UInt64) (start disk : Disk) : Prop where
  recorded : config.Recorded least start → config.Recorded least disk
  vacant (id : UInt64) : id < least → config.fileBytes start (.segment id) = none →
    config.fileBytes disk (.segment id) = none

variable {config : Config} {least : UInt64} {start middle disk : Disk} {places : Set Location}

theorem Guards.refl (config : Config) (least : UInt64) (disk : Disk) :
    config.Guards least disk disk :=
  ⟨fun hdisk => hdisk, fun _ _ hdisk => hdisk⟩

/-- Segments that are guarded twice are guarded. -/
theorem Guards.trans (h : config.Guards least start middle) (h' : config.Guards least middle disk) :
    config.Guards least start disk :=
  ⟨fun hstart => h'.recorded (h.recorded hstart), fun id hid hstart =>
    h'.vacant id hid (h.vacant id hid hstart)⟩

/-- Nothing happens to the two files where they are spared. -/
theorem guards_of_spares (h : start.Spares places disk) (hrange : config.place .range ∉ places)
    (hcapacity : config.place .capacity ∉ places)
    (hsegment : ∀ id, id < least → config.place (.segment id) ∈ places →
      config.fileBytes start (.segment id) = none → config.fileBytes disk (.segment id) = none) :
    config.Guards least start disk where
  recorded hstart := by
    refine ⟨h.firm hrange hstart.firm_range, h.firm hcapacity hstart.firm_capacity, ?_⟩
    rw [range?_congr (fileBytes_of_changes h.toChanges hrange)]
    exact hstart.exists_range
  vacant id hid hstart := by
    by_cases hplace : config.place (.segment id) ∈ places
    · exact hsegment id hid hplace hstart
    · rw [fileBytes_of_changes h.toChanges hplace, hstart]

/-- Where only one of the other files is not spared. -/
theorem guards_of_spares_file (h : config.Separate) {file : ValueFile}
    (hspares : start.Spares {config.place file} disk) (hrange : file ≠ .range)
    (hcapacity : file ≠ .capacity) (hsegment : ∀ id, id < least → file = .segment id →
      config.fileBytes start file = none → config.fileBytes disk file = none) :
    config.Guards least start disk := by
  refine guards_of_spares hspares (h.place_ne hrange.symm) (h.place_ne hcapacity.symm) ?_
  intro id hid hplace
  obtain rfl : .segment id = file := h.injective hplace
  exact hsegment id hid rfl

theorem guards_of_spares_empty (h : start.Spares ∅ disk) : config.Guards least start disk :=
  guards_of_spares h (Set.notMem_empty _) (Set.notMem_empty _) fun _ _ hplace =>
    absurd hplace (Set.notMem_empty _)

end Config

section Growth

variable {config : Config} {least : UInt64} {start : Disk}

/-- A range that goes on is recorded at every moment while it takes the place of the old one, and it has
reached the medium then. -/
theorem guards_storeRange (h : start.WellFormed) (hseparate : config.Separate)
    {range : SegmentRange} (horder : range.first ≤ range.next) (hleast : least ≤ range.next) :
    Achieves (range.store config.rangeFile) start (config.Guards least start)
      (fun _ disk => start.Spares {config.besideRange.place, config.place .range} disk ∧
        disk.Firm (config.place .range))
      (fun _ => start.Spares {config.besideRange.place, config.place .range}) := by
  have hcapacity : config.place .capacity ∉
      ({config.besideRange.place, config.place .range} : Set Location) := by
    simp [(hseparate.besideRange .capacity).symm, hseparate.place_ne]
  have hspared : Achieves (range.store config.rangeFile) start (fun disk =>
        start.Spares {config.besideRange.place, config.place .range} disk ∧
          (start.Firm (config.place .range) → disk.Firm (config.place .range))) _ _ :=
    spares_replaceFile h (hseparate.besideRange .range) _ fun disk hspares hfirm => ⟨hspares, hfirm⟩
  have hstored : Achieves (range.store config.rangeFile) start (fun disk =>
        disk.leaf (config.place .range) = start.leaf (config.place .range) ∨
          disk.bytesAt (config.place .range) = some (Utf8.encode range.encode)) _ _ :=
    achieves_replaceFile_of_changes h (hseparate.besideRange .range) _
      fun disk _ hsaid => hsaid.imp_right And.right
  refine (hspared.and hstored).mono ?_ (fun _ _ _ hboth => hboth.1) fun _ _ _ hboth => hboth.1.1
  intro disk hboth
  obtain ⟨⟨hspares, hfirm⟩, hsaid⟩ := hboth
  have hsegment : ∀ id, config.place (.segment id) ∉
      ({config.besideRange.place, config.place .range} : Set Location) := fun id => by
    simp [(hseparate.besideRange (.segment id)).symm, hseparate.place_ne]
  refine ⟨fun hstart => ⟨hfirm hstart.firm_range, hspares.firm hcapacity hstart.firm_capacity, ?_⟩,
    fun id _ hstart => (Config.fileBytes_of_changes hspares.toChanges (hsegment id)).trans hstart⟩
  -- the file says the old range or the new one
  rcases hsaid with hsame | hbytes
  · rw [Config.range?_congr (congrArg (Option.map Prod.snd) hsame)]
    exact hstart.exists_range
  · refine ⟨range, ?_, hleast⟩
    rw [Config.range?, Config.fileBytes, hbytes]
    exact SegmentRange.ofBytes?_encode horder

/-- A new segment is empty, and the files of other names are spared. -/
theorem spares_createSegment (h : start.WellFormed) (hseparate : config.Separate) {id : UInt64}
    (hleast : least ≤ id) :
    Achieves (create (config.segmentFile id)) start (config.Guards least start)
      (fun file disk => start.Spares {config.place (.segment id)} disk ∧
        start.Admits (config.segmentFile id) ∧
        disk.leaf (config.place (.segment id)) = some (file, []))
      (fun _ disk => start = disk) := by
  have hcreated : Achieves (create (config.segmentFile id)) start (fun _ => True) _ _ :=
    achieves_create h _ trivial fun _ _ _ => trivial
  have hguards (disk : Disk) (hdisk : start.Spares {config.place (.segment id)} disk) :
      config.Guards least start disk := by
    refine Config.guards_of_spares_file hseparate hdisk (by simp) (by simp) fun other hother hsame => ?_
    obtain rfl : id = other := by simpa using hsame
    exact absurd (UInt64.lt_of_lt_of_le hother hleast) (UInt64.lt_irrefl _)
  refine ((spares_create h (config.segmentFile id) hguards).and hcreated).mono
    (fun _ hboth => hboth.1) ?_ fun _ _ _ hboth => hboth.1
  intro file disk _ hboth
  obtain ⟨hspares, hadmits, hbecomes⟩ := hboth
  refine ⟨hspares, hadmits, ?_⟩
  rw [hbecomes.leaf_eq]
  exact Function.update_self _ _ _

/-- While a segment is added, the files of other names are spared, and the range is recorded. -/
theorem guards_grow (h : start.WellFormed) (hseparate : config.Separate)
    {range : SegmentRange} (horder : range.first ≤ range.next) {id : UInt64} (hleast : least ≤ id)
    (hnext : id ≤ range.next) :
    Achieves (do range.store config.rangeFile; create (config.segmentFile id)) start
      (config.Guards least start)
      (fun file disk => start.Spares (config.growthPlaces id) disk ∧
        disk.Firm (config.place .range) ∧ disk.leaf (config.place (.segment id)) = some (file, []))
      (fun _ _ => True) := by
  have hstored : ({config.besideRange.place, config.place .range} : Set Location) ⊆
      config.growthPlaces id := by
    rintro place (rfl | rfl)
    · exact .inl rfl
    · exact .inr (.inl rfl)
  have hcreated : ({config.place (.segment id)} : Set Location) ⊆ config.growthPlaces id :=
    fun place hplace => .inr (.inr hplace)
  refine Achieves.bind_trans (config.Guards least) Config.Guards.trans
    ((guards_storeRange h hseparate horder (UInt64.le_trans hleast hnext)).imp_failed
      fun _ _ _ _ => trivial) ?_
  rintro _ stored ⟨hspares, hfirm⟩
  refine (spares_createSegment hspares.wellFormed hseparate hleast).imp ?_ fun _ _ _ _ => trivial
  intro file disk _ hcreate
  exact ⟨(hspares.mono hstored).trans (hcreate.1.mono hcreated),
    hcreate.1.firm (hseparate.place_ne (by simp)) hfirm, hcreate.2.2⟩

end Growth

/-- A line that is written to an index log spares all other files. -/
theorem Index.spares_put {start : Disk} {during : Disk → Prop} {index : Index} (h : start.WellFormed)
    {place : Location} {bytes : Bytes} (hleaf : start.leaf place = some (index.log, bytes))
    (key : Bytes) (address : UInt64) (hduring : ∀ disk, start.Spares {place} disk → during disk) :
    Meets (index.put key address) start during fun _ disk => start.Spares {place} disk :=
  Meets.bind (spares_append h hleaf _ hduring) fun _ _ hdisk hline => meets_pure hdisk hline.1

/-- Closing an index spares all files but its log and the one beside it. -/
theorem Index.spares_close {start : Disk} {index : Index} (h : start.WellFormed)
    (hne : (IndexLog.beside index.path).place ≠ index.path.place) :
    Achieves index.close start
      (start.Spares {(IndexLog.beside index.path).place, index.path.place})
      (fun _ _ => True) (fun _ _ => True) := by
  have hsynced : Meets index.sync start
      (start.Spares {(IndexLog.beside index.path).place, index.path.place})
      fun index' disk => index'.path = index.path ∧ disk.WellFormed :=
    Meets.bind (Drive.spares_sync h index.log fun _ hspares => hspares.mono (Set.empty_subset _))
      fun _ _ hdisk hlast => meets_pure hdisk ⟨rfl, hlast.1.wellFormed⟩
  refine Achieves.bind (achieves_lift hsynced) ?_
  intro index' disk hdisk hsaid
  obtain ⟨hpath, hwell⟩ := hsaid
  rw [IndexLog.store, hpath]
  exact (spares_replaceFile hwell hne _ fun last hlast _ => hdisk.trans hlast).imp
    (fun _ _ _ _ => trivial) fun _ _ _ _ => trivial

namespace ValueLog

/-- The segments of an open log, from `origin` to the active one, are in shape, and all but the active one
have reached the medium. -/
structure Orderly (config : Config) (log : ValueLog) (disk : Disk) (origin : UInt64) : Prop where
  shaped (id : UInt64) : origin ≤ id → id ≤ log.active.id → ∃ bytes,
    config.fileBytes disk (.segment id) = some bytes ∧ Scan.Shaped config.capacity.toNat bytes
  sealed (id : UInt64) : origin ≤ id → id < log.active.id → disk.Firm (config.place (.segment id))

variable {config : Config} {log : ValueLog} {start : Disk} {origin least : UInt64}
  {base : List (Bytes × UInt64)} {found : Found}

/-- Files that are spared leave the segments orderly. -/
theorem Orderly.of_spares (h : log.Orderly config start origin) {disk : Disk}
    {places : Set Location} (hspares : start.Spares places disk)
    (hsegment : ∀ id, origin ≤ id → config.place (.segment id) ∉ places) :
    log.Orderly config disk origin where
  shaped id hid hid' := by
    rw [Config.fileBytes_of_changes hspares.toChanges (hsegment id hid)]
    exact h.shaped id hid hid'
  sealed id hid hid' := hspares.firm (hsegment id hid) (h.sealed id hid hid')

/-- The index and the range of an open log make no difference to its segments. -/
theorem Orderly.congr (h : log.Orderly config start origin) {log' : ValueLog}
    (hsame : log'.active = log.active) : log'.Orderly config start origin :=
  ⟨by rw [hsame]; exact h.shaped, by rw [hsame]; exact h.sealed⟩

/-- Sealing a segment brings it to the medium, and the next one is in shape since it is empty. -/
theorem Orderly.rollOver (h : log.Orderly config start origin)
    (htracks : log.Tracks config start origin base found) (hseparate : config.Separate)
    (hleast : least ≤ log.range.next) :
    Achieves log.rollOver start (config.Guards least start)
      (fun log' disk => log'.Orderly config disk origin ∧ log'.active.id = log.range.next ∧
        log'.active.length = 0)
      (fun _ _ => True) := by
  obtain ⟨bytes, hleaf, -, -⟩ := htracks.active_leaf
  refine Achieves.bind_trans (config.Guards least) Config.Guards.trans (achieves_lift (Drive.spares_sync
    htracks.wellFormed log.active.file fun disk hspares => Config.guards_of_spares_empty hspares)) ?_
  intro _ synced hsync
  obtain ⟨hspares, -, hfirm⟩ := hsync
  have hfirm := hfirm _ (Disk.leaf_eq_some_iff.mp hleaf).1
  split
  case h_2 => exact achieves_throw (.refl _ _ _) trivial
  rename_i range hgrow
  obtain ⟨hfirst, hnext⟩ := SegmentRange.of_grow? hgrow
  have horder : range.first ≤ range.next := by
    rw [hfirst]
    exact UInt64.le_trans htracks.first_le
      (UInt64.le_trans htracks.origin_le_next (SegmentRange.le_next hnext))
  -- growing and creating belong together, as `guards_grow` has them
  have hprogram : (do
      range.store log.rangeFile
      let id := log.range.next
      let file ← create (log.segmentFile id)
      return { log with range, active := { id, file, length := 0 } } : DiskM ValueLog) =
      (do range.store config.rangeFile; create (config.segmentFile log.range.next)) >>=
        fun file => return { log with
          range, active := { id := log.range.next, file, length := 0 } } := by
    simp only [segmentFile_eq htracks.stem_eq, htracks.rangeFile_eq, bind_assoc]
  rw [hprogram]
  refine Achieves.bind_trans (config.Guards least) Config.Guards.trans
    (guards_grow hspares.wellFormed hseparate horder hleast (SegmentRange.le_next hnext)) ?_
  intro file disk hgrown
  obtain ⟨hgrowth, -, hempty⟩ := hgrown
  have hall := (hspares.mono (Set.empty_subset (config.growthPlaces log.range.next))).trans hgrowth
  -- the segments up to the one that was sealed are spared
  have hsegment : ∀ id, id ≤ log.active.id →
      config.place (.segment id) ∉ config.growthPlaces log.range.next := fun id hid =>
    hseparate.not_mem_growthPlaces (by simp)
      (ValueFile.segment_ne (UInt64.lt_of_le_of_lt hid htracks.active_lt_next))
  have hcases : ∀ id, id ≤ log.range.next → id = log.range.next ∨ id ≤ log.active.id := by
    intro id hid
    rcases UInt64.lt_or_eq_of_le hid with hlt | heq
    · exact .inr (htracks.le_active hlt)
    · exact .inl heq
  refine achieves_pure (.refl _ _ _) ⟨⟨fun id hid hid' => ?_, fun id hid hid' => ?_⟩, rfl, rfl⟩
  · rcases hcases id hid' with rfl | hold
    · exact ⟨[], Disk.bytesAt_of_leaf hempty, Scan.shaped_nil _⟩
    · rw [Config.fileBytes_of_changes hall.toChanges (hsegment id hold)]
      exact h.shaped id hid hold
  · have hold := (hcases id (UInt64.le_of_lt hid')).resolve_left (UInt64.ne_of_lt hid')
    rcases UInt64.lt_or_eq_of_le hold with hlt | rfl
    · exact hall.firm (hsegment id hold) (h.sealed id hid hlt)
    · exact hgrowth.firm (hsegment _ hold) hfirm

/-- A record that fits, or is the first, leaves the active segment in shape. -/
theorem Orderly.append (h : log.Orderly config start origin)
    (htracks : log.Tracks config start origin base found) (hseparate : config.Separate)
    {record : Record} (hsmall : record.Small) (hbelow : log.active.length < config.capacity.toNat)
    (hfits : log.isFull record.length = false) :
    Achieves (log.append record) start (config.Guards least start)
      (fun log' disk => log'.Orderly config disk origin ∧ log'.active.id = log.active.id)
      (fun _ _ => True) := by
  obtain ⟨bytes, hleaf, hlength, -⟩ := htracks.active_leaf
  unfold ValueLog.append
  dsimp only
  split
  case h_2 => exact achieves_throw (.refl _ _ _) trivial
  rename_i address _
  -- the record is written to the active segment
  have hrecord : Meets (write log.active.file log.active.length record.encode) start
      (fun _ => True) _ :=
    meets_write_end htracks.wellFormed hleaf hlength.symm record.encode fun _ _ _ => trivial
  have hguards (disk : Disk) (hspares : start.Spares {config.place (.segment log.active.id)} disk) :
      config.Guards least start disk := by
    refine Config.guards_of_spares_file hseparate hspares (by simp) (by simp) fun _ _ _ hnone => ?_
    -- the active segment is there
    exact absurd ((Disk.bytesAt_of_leaf hleaf).symm.trans hnone) nofun
  refine Achieves.bind_trans (config.Guards least) Config.Guards.trans (achieves_lift
    (((spares_write htracks.wellFormed hleaf log.active.length record.encode hguards).and
      hrecord).mono (fun _ hboth => hboth.1) fun _ _ _ hboth => hboth)) ?_
  intro _ written hwrite
  obtain ⟨⟨hspares, -⟩, hbecomes⟩ := hwrite
  have hother : ∀ file, file ≠ .segment log.active.id →
      config.place file ∉ ({config.place (.segment log.active.id)} : Set Location) :=
    fun file hfile => hseparate.place_ne hfile
  -- and its line to the index log
  have hindex : written.leaf (config.place .index) = _ :=
    (hspares.leaf_eq (hother .index (by simp))).trans htracks.index_leaf
  refine Achieves.bind_trans (config.Guards least) Config.Guards.trans
    (achieves_lift (Index.spares_put hspares.wellFormed hindex record.key address fun disk hdisk =>
      Config.guards_of_spares_file hseparate hdisk (by simp) (by simp) (by simp))) ?_
  intro index disk hline
  have hother' : ∀ id, config.place (.segment id) ∉ ({config.place .index} : Set Location) :=
    fun id => hseparate.place_ne (by simp)
  refine achieves_pure (.refl _ _ _) ⟨⟨fun id hid hid' => ?_, fun id hid hid' => ?_⟩, rfl⟩
  · rw [Config.fileBytes_of_changes hline.toChanges (hother' id)]
    by_cases hsame : id = log.active.id
    · subst hsame
      obtain ⟨found, hfound, hshaped⟩ := h.shaped _ hid hid'
      obtain rfl : found = bytes := Option.some.inj (hfound.symm.trans (Disk.bytesAt_of_leaf hleaf))
      have hactive : config.fileBytes written (.segment log.active.id) =
          some (found ++ record.encode) := by
        rw [Config.fileBytes, Disk.bytesAt, hbecomes.leaf_eq, Function.update_self]
        rfl
      refine ⟨_, hactive, hshaped.append (by omega) hsmall fun hpos => ?_⟩
      simp only [isFull, htracks.capacity_eq, decide_eq_false_iff_not, not_and, Nat.not_lt] at hfits
      rw [hlength] at hpos ⊢
      exact hfits hpos
    · rw [Config.fileBytes_of_changes hspares.toChanges (hother _ (by simpa using hsame))]
      exact h.shaped id hid hid'
  · have hne : ValueFile.segment id ≠ .segment log.active.id := ValueFile.segment_ne hid'
    exact hline.firm (hother' id) (hspares.firm (hother _ hne) (h.sealed id hid hid'))

/-- The active segment is sealed exactly if the record does not fit. -/
theorem Orderly.makeRoom (h : log.Orderly config start origin)
    (htracks : log.Tracks config start origin base found) (hseparate : config.Separate)
    (hleast : least ≤ log.range.next) (length : Nat) :
    Achieves (log.makeRoom length) start (config.Guards least start)
      (fun log' disk => log'.Orderly config disk origin ∧ log'.isFull length = false ∧
        log'.active.id = if log.isFull length then log.range.next else log.active.id)
      (fun _ _ => True) := by
  unfold ValueLog.makeRoom
  split
  · refine (h.rollOver htracks hseparate hleast).imp_done ?_
    intro log' disk _ hrolled
    obtain ⟨horderly, hactive, hempty⟩ := hrolled
    -- a record is always let into an empty segment
    exact ⟨horderly, by simp [isFull, hempty], hactive⟩
  · rename_i hroom
    exact achieves_pure (.refl _ _ _) ⟨h, Bool.eq_false_iff.mpr hroom, rfl⟩

/-- A write keeps the segments in shape. What a crash in it leaves holds records of the session, and
perhaps the one that was to be written. -/
theorem Orderly.put (h : log.Orderly config start origin)
    (htracks : log.Tracks config start origin base found) (hseparate : config.Separate)
    (hcapacity : config.capacity ≠ 0) (hleast : least ≤ log.range.next) {key value : Bytes}
    (hsmall : Record.Small ⟨key, value⟩) :
    Meets (log.put key value) start
      (fun disk => config.Guards least start disk ∧ (config.Vacant start log.range.next →
        ∃ lined records, config.Remains start origin log.range.first base lined records disk))
      fun result disk => result.2 = .ok () → result.1.Orderly config disk origin ∧
        result.1.active.id =
          if log.isFull (Record.length ⟨key, value⟩) then log.range.next else log.active.id := by
  -- room is made, if there is need to, and the record is appended; each part keeps the segments in shape
  rw [put_eq]
  have hmade : Achieves (log.makeRoom (Record.length ⟨key, value⟩)) start
      (fun disk => config.Vacant start log.range.next →
        ∃ lined records, config.Remains start origin log.range.first base lined records disk) _ _ :=
    htracks.makeRoom hseparate hcapacity (Record.length_pos _) fun _ hremains hvacant =>
      ⟨found, found, hremains hvacant⟩
  refine Meets.bind ((h.makeRoom htracks hseparate hleast _).and hmade) ?_
  intro outcome disk hdisk houtcome
  cases outcome with
  | error fault => exact meets_pure hdisk nofun
  | ok sealed =>
    obtain ⟨⟨horderly, hroom, hactive⟩, -, hfirst, hbelow, -, hchanges, hvacant, htracks⟩ := houtcome
    have happended : Achieves (sealed.append ⟨key, value⟩) disk
        (fun last => config.Vacant start log.range.next →
          ∃ lined records, config.Remains start origin log.range.first base lined records last) _ _ :=
      htracks.append hseparate hsmall hbelow fun address lined records last _ _ hremains hclear =>
        ⟨lined, records, hfirst ▸ .trans hchanges (hremains (hvacant hclear))⟩
    refine Meets.bind (((horderly.append htracks hseparate hsmall hbelow hroom).and happended).mono
      (fun last hboth => ⟨hdisk.1.trans hboth.1, hboth.2⟩) (fun _ _ _ hdone => hdone)
      fun _ _ _ hfault => hfault) ?_
    intro outcome last hlast houtcome
    cases outcome with
    | error fault => exact meets_pure hlast nofun
    | ok log' => exact meets_pure hlast fun _ => ⟨houtcome.1.1, houtcome.1.2.trans hactive⟩

/-- A barrier takes nothing from the medium, and brings the active segment and the index log there. -/
theorem spares_sync (h : start.WellFormed) (log : ValueLog) :
    Meets log.sync start (start.Spares ∅) fun log' disk =>
      log' = { log with index := { log.index with
        staged := ∅, applied := log.index.applied ∪ log.index.staged } } ∧
      start.Spares ∅ disk ∧ ∀ place id, start.node? place = some (.file id) →
        id = log.active.file ∨ id = log.index.log → disk.Firm place := by
  rw [sync_eq]
  refine Meets.bind_trans (Disk.Spares · ∅) Disk.Spares.trans
    (Drive.spares_sync h log.active.file fun _ h => h) ?_
  intro _ middle hfirst
  obtain ⟨hspares, hnode, hfirm⟩ := hfirst
  refine Meets.bind_trans (Disk.Spares · ∅) Disk.Spares.trans
    (Drive.spares_sync hspares.wellFormed log.index.log fun _ h => h) ?_
  intro _ last hsecond
  obtain ⟨hspares', -, hfirm'⟩ := hsecond
  refine meets_pure (.refl hspares'.wellFormed) ⟨rfl, hspares.trans hspares', ?_⟩
  intro place id hfile hid
  -- the second sync takes nothing of the first one back
  rcases hid with rfl | rfl
  · exact hspares'.firm (Set.notMem_empty _) (hfirm place hfile)
  · exact hfirm' place (by rw [hnode, hfile])

end ValueLog

end BarrierStore
