import BarrierStore.Proofs.Config.DataDirectory
import BarrierStore.Proofs.ValueLog.Recovery

/-!
# Opening a value log

Opening checks the range and the capacity, makes a fresh active segment, and recovers. Each step leaves
what the files select as it was, so a crash in any of them can be followed by another opening.

The module introduces:

* `Config.Openable` — files from which a value log opens, unless it runs out of addresses;
* `ValueLog.Opened` — what an opening has done;
* `ValueLog.Prepared` — files on which an opening goes on, with its index and its directory there.

Main statements: `ValueLog.achieves_openWith`, `ValueLog.achieves_openAt`, and
`Config.Openable.of_preserves`.
-/

namespace BarrierStore

open Drive

namespace Config

/-- The files of a value log with the range `old`, from which it can be opened. -/
structure Openable (config : Config) (disk : Disk) (old : SegmentRange) : Prop where
  wellFormed : disk.WellFormed
  room : config.HasRoom disk old.first
  capacity : config.HasCapacity disk
  range_eq : config.range? disk = some old
  vacant : config.Vacant disk old.next

variable {config : Config} {start disk : Disk} {old : SegmentRange}

/-- A range does not end before it starts. -/
theorem Openable.order (h : config.Openable disk old) : old.first ≤ old.next :=
  SegmentRange.first_le_next_of_ofBytes? h.range_eq

/-- Files that preserve others can be opened if those can, and select the same. -/
theorem Openable.of_preserves (h : config.Openable start old) (hsame : config.Preserves start old disk) :
    ∃ range, config.Openable disk range ∧ ∀ key,
      selectedValue (config.indexed disk) (config.scanned disk range) key =
        selectedValue (config.indexed start) (config.scanned start old) key := by
  obtain ⟨range, hfirst, hrange, hvacant, hselected⟩ := hsame.exists_range
  exact ⟨range, ⟨hsame.changes.wellFormed, (h.room.of_changes hsame.changes).mono hfirst,
    hsame.capacity h.capacity, hrange, hvacant⟩, hselected⟩

/-- Other files make no difference. -/
theorem Openable.of_changes (h : config.Openable start old) {places : Set Location}
    (hchanges : start.Changes places disk) (hrange : config.place .range ∉ places)
    (hcapacity : config.place .capacity ∉ places)
    (hsegment : ∀ id, old.next ≤ id → config.place (.segment id) ∉ places) :
    config.Openable disk old where
  wellFormed := hchanges.wellFormed
  room := h.room.of_changes hchanges
  capacity := h.capacity.of_changes hchanges hcapacity
  range_eq := (range?_congr (fileBytes_of_changes hchanges hrange)).trans h.range_eq
  vacant := h.vacant.of_changes hchanges hsegment

/-- The files that a session leaves can be opened, if they say where its segments end. -/
theorem Openable.of_session {origin : UInt64} {range : SegmentRange} (h : config.Openable start old)
    (hseparate : config.Separate) (hchanges : start.Changes (config.sessionPlaces origin) disk)
    (hfirst : range.first = old.first) (hrange : config.range? disk = some range)
    (hvacant : config.Vacant disk range.next) : config.Openable disk range where
  wellFormed := hchanges.wellFormed
  room := hfirst ▸ h.room.of_changes hchanges
  capacity := h.capacity.of_changes hchanges
    (hseparate.not_mem_sessionPlaces (by simp) (by simp) (by simp))
  range_eq := hrange
  vacant := hvacant

/-- An empty directory has the files of a value log without segments. -/
theorem openable_of_empty {base : Config} {directory : Path} (h : disk.WellFormed)
    (hempty : disk.EmptyDirectory directory) :
    (base.withDirectory directory).Openable disk SegmentRange.empty where
  wellFormed := h
  room := hasRoom_of_empty hempty _
  capacity := by
    refine .inl ⟨fileBytes_of_empty hempty .capacity, ?_⟩
    rw [besideCapacity_withDirectory]
    exact admits_of_empty hempty plain_besideSegments
  range_eq := by
    rw [range?, fileBytes_of_empty hempty .range]
    rfl
  vacant id _ := fileBytes_of_empty hempty (.segment id)

/-- The files of the value log say on the disk what they said in front of it, and only the value log
was written to. -/
structure Keeps (config : Config) (start disk : Disk) : Prop where
  changes : start.Changes config.ownPlaces disk
  capacity : config.HasCapacity start → config.HasCapacity disk
  range?_eq : config.range? disk = config.range? start
  indexed_eq : config.indexed disk = config.indexed start
  segment_eq (id : UInt64) :
    config.fileBytes disk (.segment id) = config.fileBytes start (.segment id)

variable {middle : Disk}

/-- Where the files say the same, the same values are selected. -/
theorem Keeps.selected_eq (h : config.Keeps start disk) (range : SegmentRange) (key : Bytes) :
    selectedValue (config.indexed disk) (config.scanned disk range) key =
      selectedValue (config.indexed start) (config.scanned start range) key := by
  rw [h.indexed_eq, scanned_congr fun id _ _ => h.segment_eq id]

/-- Where the files say the same, the same segments are not there. -/
theorem Keeps.vacant (h : config.Keeps start disk) {next : UInt64}
    (hvacant : config.Vacant start next) : config.Vacant disk next :=
  fun id hid => (h.segment_eq id).trans (hvacant id hid)

/-- Where the files say the same, a log can be opened still. -/
theorem Keeps.openable (h : config.Keeps start disk) (hopen : config.Openable start old) :
    config.Openable disk old :=
  ⟨h.changes.wellFormed, hopen.room.of_changes h.changes, h.capacity hopen.capacity,
    h.range?_eq.trans hopen.range_eq, h.vacant hopen.vacant⟩

/-- What preserves files that say the same preserves the files. -/
theorem Keeps.preserves (h : config.Keeps start middle)
    (hpreserves : config.Preserves middle old disk) : config.Preserves start old disk :=
  .trans h.changes h.capacity (UInt64.le_refl _) (h.selected_eq old) hpreserves

/-- A disk preserves what its own files hold. -/
theorem Openable.preserves_self (h : config.Openable start old) :
    config.Preserves start old start where
  changes := .refl h.wellFormed
  capacity := fun hstart => hstart
  exists_range := ⟨old, UInt64.le_refl _, h.range_eq, h.vacant, fun _ => rfl⟩

theorem Openable.preserves_of_keeps (h : config.Openable start old) (hkeeps : config.Keeps start disk) :
    config.Preserves start old disk :=
  hkeeps.preserves (hkeeps.openable h).preserves_self

end Config

namespace ValueLog

variable {config : Config} {start : Disk} {during : Disk → Prop}

/-! ## The capacity file -/

/-- The places that a new capacity file goes through. -/
def capacityPlaces (config : Config) : Set Location :=
  {config.besideCapacity.place, config.place .capacity}

/-- To store the capacity concerns no other file of the value log. -/
theorem not_mem_capacityPlaces (hseparate : config.Separate) {file : ValueFile}
    (hfile : file ≠ .capacity) : config.place file ∉ capacityPlaces config := by
  rintro (hplace | hplace)
  · exact hseparate.besideCapacity file hplace.symm
  · exact hfile (hseparate.injective hplace)

theorem capacityPlaces_subset : capacityPlaces config ⊆ config.ownPlaces := by
  rintro place (rfl | rfl)
  · exact .inr (.inr (.inr rfl))
  · exact Config.place_mem_ownPlaces .capacity

/-- The capacity file says the capacity of the configuration, or comes to say it. -/
theorem achieves_checkCapacity (h : start.WellFormed) (hseparate : config.Separate)
    (hcapacity : config.capacity ≠ 0)
    (hduring : ∀ disk, start.Changes (capacityPlaces config) disk →
      (config.HasCapacity start → config.HasCapacity disk) → during disk) :
    Achieves (checkCapacity config) start during
      (fun _ disk => start.Admits (Capacity.file config.rangeFile) ∧ config.HasCapacity start ∧
        start.Changes (capacityPlaces config) disk ∧ config.HasCapacity disk)
      (fun _ _ => ¬ (start.Admits (Capacity.file config.rangeFile) ∧ config.HasCapacity start)) := by
  have hbefore : during start := hduring start (.refl h) fun hstart => hstart
  unfold checkCapacity
  dsimp only
  refine Achieves.bind ((Capacity.achieves_load? _ hbefore).imp_failed ?_) ?_
  · rintro fault _ - ⟨rfl, hrefused⟩ ⟨hadmits, hstart⟩
    refine hrefused ⟨hadmits, fun bytes hbytes => ?_⟩
    rcases hstart with ⟨hnone, -⟩ | ⟨found, hfound, hsaid⟩
    · exact absurd (hbytes.symm.trans hnone) nofun
    · obtain rfl := Option.some.inj (hbytes.symm.trans hfound)
      simp [hsaid]
  rintro recorded _ - ⟨rfl, hfound⟩
  cases recorded with
  | some recorded =>
    obtain ⟨hadmits, hrecorded, -⟩ := hfound nofun
    obtain ⟨bytes, hbytes, hsaid⟩ := Option.bind_eq_some_iff.mp hrecorded.symm
    dsimp only
    split
    · rename_i hother
      refine achieves_throw hbefore fun ⟨_, hstart⟩ => hother ?_
      rcases hstart with ⟨hnone, -⟩ | ⟨found, hfound, hsaid'⟩
      · exact absurd (hbytes.symm.trans hnone) nofun
      · obtain rfl := Option.some.inj (hbytes.symm.trans hfound)
        exact Option.some.inj (hsaid.symm.trans hsaid')
    · rename_i hsame
      obtain rfl := not_not.mp hsame
      have hstart : config.HasCapacity start := .inr ⟨bytes, hbytes, hsaid⟩
      exact achieves_pure hbefore ⟨hadmits, hstart, .refl h, hstart⟩
  | none =>
    -- no capacity is on record, so this one is put there
    have hsaid : ∀ disk, config.fileBytes disk .capacity =
        some (Utf8.encode (Capacity.encode config.capacity)) → config.HasCapacity disk :=
      fun disk hbytes => .inr ⟨_, hbytes, Capacity.ofBytes?_encode hcapacity⟩
    refine (achieves_replaceFile_of_changes h (hseparate.besideCapacity .capacity) _ ?_).imp ?_ ?_
    · rintro disk hchanges (hsame | ⟨-, hbytes⟩)
      · refine hduring disk hchanges fun hstart => ?_
        have hbytes : config.fileBytes disk .capacity = config.fileBytes start .capacity :=
          congrArg (Option.map Prod.snd) hsame
        rw [Config.HasCapacity, hbytes, hchanges.admits_iff]
        exact hstart
      · exact hduring disk hchanges fun _ => hsaid disk hbytes
    · rintro _ disk - ⟨hadmits, hbeside, hchanges, file, hleaf⟩
      obtain ⟨-, -, hnone⟩ := hfound fun _ => hadmits.toReaches
      exact ⟨hadmits, .inl ⟨hnone rfl, hbeside⟩, hchanges,
        hsaid disk (Disk.bytesAt_of_leaf hleaf)⟩
    · rintro _ disk - ⟨-, hrefused⟩ ⟨hadmits, hstart⟩
      obtain ⟨-, -, hnone⟩ := hfound fun _ => hadmits.toReaches
      rcases hstart with ⟨-, hbeside⟩ | ⟨bytes, hbytes, -⟩
      · exact hrefused ⟨hadmits, hbeside⟩
      · exact absurd (hbytes.symm.trans (hnone rfl)) nofun

/-! ## The fresh segment -/

section Growth

variable {old range : SegmentRange} {disk : Disk}

theorem growthPlaces_subset_own (id : UInt64) : config.growthPlaces id ⊆ config.ownPlaces :=
  (Config.growthPlaces_subset (UInt64.le_refl id)).trans (Config.sessionPlaces_subset id)

/-- The fresh segment counts before and after it is there, and has no record. -/
theorem preserves_of_growth (hseparate : config.Separate) (hrange : config.range? start = some old)
    (hfirst : range.first = old.first) (hnext : range.next.toNat = old.next.toNat + 1)
    (hchanges : start.Changes (config.growthPlaces old.next) disk)
    (hgrowing : config.Growing start range old.next disk)
    (hvacant : config.Vacant start old.next) : config.Preserves start old disk := by
  have hown : start.Changes config.ownPlaces disk := hchanges.mono (growthPlaces_subset_own _)
  have hcapacity : config.HasCapacity start → config.HasCapacity disk := fun hstart =>
    hstart.of_changes hchanges (hseparate.not_mem_growthPlaces (by simp) (by simp))
  have hindexed : config.indexed disk = config.indexed start :=
    Config.indexed_congr (Config.fileBytes_of_changes hchanges
      (hseparate.not_mem_growthPlaces (by simp) (by simp)))
  have hother : ∀ id, id ≠ old.next →
      config.fileBytes disk (.segment id) = config.fileBytes start (.segment id) := fun id hid =>
    Config.fileBytes_of_changes hchanges (hseparate.not_mem_growthPlaces (by simp) (by simpa using hid))
  have hold : config.scanned disk old = config.scanned start old :=
    Config.scanned_congr fun id _ hid => hother id (UInt64.ne_of_lt hid)
  have hempty := hgrowing.scannedSegment_eq (hvacant _ (UInt64.le_refl _))
  have hgrown : config.range? disk = some range → config.Preserves start old disk := by
    intro hsaid
    have hle : old.next ≤ range.next := SegmentRange.le_next hnext
    -- the range counts, and its last segment has no record
    have hfresh : config.scanned disk ⟨old.next, range.next⟩ = [] := by
      rw [Config.scanned, SegmentRange.ids_single hnext, List.flatMap_cons, hempty]
      rfl
    have hscanned : config.scanned disk range = config.scanned start old := by
      have hsplit : range = ⟨old.first, range.next⟩ := by rw [← hfirst]
      rw [hsplit, Config.scanned_append (SegmentRange.first_le_next_of_ofBytes? hrange) hle, hfresh,
        List.append_nil]
      exact hold
    exact ⟨hown, hcapacity, range, UInt64.le_of_eq hfirst.symm, hsaid,
      hvacant.grow hseparate hnext hchanges, fun key => by rw [hindexed, hscanned]⟩
  cases hgrowing with
  | before hsame hbytes =>
    refine ⟨hown, hcapacity, old, UInt64.le_refl _, hsame.trans hrange, fun id hid => ?_,
      fun key => by rw [hindexed, hold]⟩
    -- the old range counts, and the segments behind it are as they were
    by_cases heq : id = old.next
    · rw [heq, hbytes]
      exact hvacant _ (UInt64.le_refl _)
    · rw [hother id heq]
      exact hvacant id hid
  | counted hsaid | made hsaid => exact hgrown hsaid

/-- A log whose active segment is fresh tracks the lines that its index log starts with. -/
theorem tracks_of_fresh {index : Index} {file : FileId} (hseparate : config.Separate)
    (hpath : index.path = config.indexLog)
    (hleaf : start.leaf (config.place .index) = some (index.log, IndexLog.compact index.applied))
    (horder : old.first ≤ old.next) (hfirst : range.first = old.first)
    (hnext : range.next.toNat = old.next.toNat + 1)
    (hchanges : start.Changes (config.growthPlaces old.next) disk)
    (hadmits : start.Admits (config.segmentFile old.next))
    (hbytes : config.fileBytes disk .range = some (Utf8.encode range.encode))
    (hfresh : disk.leaf (config.place (.segment old.next)) = some (file, [])) :
    Tracks config ⟨config.capacity, config.segmentStem, config.rangeFile, index, range,
      ⟨old.next, file, 0⟩⟩ disk old.next index.applied.toList [] where
  wellFormed := hchanges.wellFormed
  capacity_eq := rfl
  stem_eq := rfl
  rangeFile_eq := rfl
  path_eq := hpath
  index_leaf := by
    rw [hchanges.leaf_eq (hseparate.not_mem_growthPlaces (by simp) (by simp)), hleaf]
    exact congrArg (fun lines => some (index.log, IndexLog.encodeEntries lines))
      (List.append_nil _).symm
  range_bytes := hbytes
  next_eq := hnext
  first_le := hfirst ▸ horder
  origin_le := UInt64.le_refl _
  active_leaf := ⟨[], hfresh, rfl, Scan.whole_nil _⟩
  scanned_eq := by
    rw [Config.scanned, SegmentRange.ids_single hnext, List.flatMap_cons, List.flatMap_nil,
      List.append_nil]
    exact Config.scannedSegment_of_nil (Disk.bytesAt_of_leaf hfresh)
  fits := by simp
  reaches := hchanges.reaches_iff.mpr hadmits.toReaches

end Growth

/-! ## The whole of it -/

/-- The last steps of an opening: the fresh segment and the recovery of the old ones. -/
def openFresh (config : Config) (index : Index) (old : SegmentRange) :
    DiskM (ValueLog × Recovery) := do
  let some range := old.grow? | throw .arithmetic
  range.store config.rangeFile
  let file ← Drive.create (config.segmentFile old.next)
  recover ⟨config.capacity, config.segmentStem, config.rangeFile, index, range, ⟨old.next, file, 0⟩⟩
    old

/-- The steps of an opening once the directory of the segments is there. -/
def openFound (config : Config) (index : Index) : DiskM (ValueLog × Recovery) := do
  let old ← SegmentRange.load config.rangeFile
  checkCapacity config
  openFresh config index old

theorem openWith_eq (config : Config) (index : Index) :
    openWith config index = (do
      if let .error cause := config.validate then throw (.config cause)
      Drive.makeParent config.segmentStem
      openFound config index) := rfl

/-- What a completed opening has done to files with the range `old`. -/
structure Opened (config : Config) (start : Disk) (old : SegmentRange)
    (base : List (Bytes × UInt64)) (log : ValueLog) (copies : Found) (disk : Disk) : Prop
    extends log.Serves config disk old.next base copies [] where
  changes : start.Changes config.ownPlaces disk
  range_eq : config.range? start = some old
  capacity : config.HasCapacity start → config.HasCapacity disk
  vacant : config.Vacant start old.next → config.Vacant disk log.range.next
  admits_range : start.Admits config.rangeFile
  admits_besideRange : start.Admits config.besideRange
  admits (id : UInt64) : old.first ≤ id → id ≤ old.next → start.Admits (config.segmentFile id)
  value_eq (key : Bytes) : latest copies.bindings key =
    selectedValue (config.indexed start) (config.scanned start old) key

variable {index : Index} {old : SegmentRange}

/-- What was opened can be opened again. -/
theorem Opened.openable {disk : Disk} {base : List (Bytes × UInt64)} {log : ValueLog} {copies : Found}
    (h : Opened config start old base log copies disk) (hopen : config.Openable start old) :
    config.Openable disk log.range where
  wellFormed := h.wellFormed
  room := by
    rw [h.first_eq]
    exact (hopen.room.of_changes h.changes).mono hopen.order
  capacity := h.capacity hopen.capacity
  range_eq := h.range?_eq
  vacant := h.vacant hopen.vacant

/-- The copies of the old records go to the fresh segment and those behind it. -/
theorem achieves_openFresh (h : start.WellFormed) (hseparate : config.Separate)
    (hcapacity : config.capacity ≠ 0) (hpath : index.path = config.indexLog)
    (hstaged : index.staged = ∅)
    (hleaf : start.leaf (config.place .index) = some (index.log, IndexLog.compact index.applied))
    (horder : old.first ≤ old.next)
    (hloaded : start.Reaches config.rangeFile → config.range? start = some old)
    (hduring : ∀ disk, (config.range? start = some old → config.Vacant start old.next →
      config.Preserves start old disk) → during disk) :
    Achieves (openFresh config index old) start during
      (fun state disk => ∃ copies,
        Opened config start old index.applied.toList state.1 copies disk)
      (fun fault _ => config.range? start = some old → config.HasRoom start old.first →
        fault = .arithmetic) := by
  have hbefore : during start := hduring start fun hrange hvacant =>
    ⟨.refl h, fun hstart => hstart, old, UInt64.le_refl _, hrange, hvacant, fun _ => rfl⟩
  unfold openFresh
  split
  case h_2 => exact achieves_throw hbefore fun _ _ => rfl
  rename_i range hgrow
  obtain ⟨hfirst, hnext⟩ := SegmentRange.of_grow? hgrow
  have hle : old.next ≤ range.next := SegmentRange.le_next hnext
  rw [← bind_assoc]
  refine Achieves.bind ((achieves_grow h hseparate (hfirst ▸ UInt64.le_trans horder hle) old.next
    ?_).imp_failed ?_) ?_
  · exact fun disk hchanges hgrowing => hduring disk fun hrange hvacant =>
      preserves_of_growth hseparate hrange hfirst hnext hchanges hgrowing hvacant
  · rintro fault disk - hrefused - hroom
    exact absurd ⟨hroom.range, hroom.besideRange, hroom.segment _ horder⟩ hrefused
  rintro file grown - ⟨hadmits, hbeside, hsegment, hchanges, hbytes, hfresh⟩
  have hrange := hloaded hadmits.toReaches
  have htracks := tracks_of_fresh hseparate hpath hleaf horder hfirst hnext hchanges hsegment hbytes
    hfresh
  have hother : ∀ file, file ≠ .range → file ≠ .segment old.next →
      config.fileBytes grown file = config.fileBytes start file := fun file hfile hfile' =>
    Config.fileBytes_of_changes hchanges (hseparate.not_mem_growthPlaces hfile hfile')
  have hown : start.Changes config.ownPlaces grown := hchanges.mono (growthPlaces_subset_own _)
  have hkept : config.HasCapacity start → config.HasCapacity grown := fun hstart =>
    hstart.of_changes hchanges (hseparate.not_mem_growthPlaces (by simp) (by simp))
  have hvacant : config.Vacant start old.next → config.Vacant grown range.next := fun hstart =>
    hstart.grow hseparate hnext hchanges
  -- the fresh segment is not among the old ones
  have hselected : ∀ key,
      selectedValue (config.indexed grown) (config.scanned grown old) key =
        selectedValue (config.indexed start) (config.scanned start old) key := by
    intro key
    rw [Config.indexed_congr (hother .index (by simp) (by simp)), Config.scanned_congr fun id _ hid =>
      hother (.segment id) (by simp) (by simpa using UInt64.ne_of_lt hid)]
  refine (htracks.recover hseparate hcapacity horder hfirst
    (Index.ofEntries_toList _).symm hstaged fun disk hpreserves => hduring disk fun _ hstart =>
      .trans hown hkept (UInt64.le_refl _) hselected (hpreserves (hvacant hstart))).imp ?_ ?_
  · rintro state disk - ⟨copies, hrecovered⟩
    refine ⟨copies, { hrecovered with
      changes := hown.trans hrecovered.changes
      range_eq := hrange
      capacity := fun hstart => hrecovered.capacity (hkept hstart)
      vacant := fun hstart => hrecovered.vacant (hvacant hstart)
      admits_range := hadmits
      admits_besideRange := hbeside
      admits := ?_
      value_eq := fun key => (hrecovered.value_eq key).trans (hselected key) }⟩
    intro id hid hid'
    rcases UInt64.lt_or_eq_of_le hid' with hlt | rfl
    · exact hchanges.admits_iff.mp (hrecovered.admits id (SegmentRange.mem_ids_iff.mpr ⟨hid, hlt⟩))
    · exact hsegment
  · exact fun fault _ _ hfault _ hroom => hfault (hroom.of_changes hchanges)

/-- What an opening has done to files, it has done to those that said the same. -/
theorem Opened.of_keeps {middle disk : Disk} {base : List (Bytes × UInt64)} {log : ValueLog}
    {copies : Found} (h : Opened config middle old base log copies disk)
    (hkeeps : config.Keeps start middle) : Opened config start old base log copies disk :=
  { h with
    changes := hkeeps.changes.trans h.changes
    range_eq := hkeeps.range?_eq.symm.trans h.range_eq
    capacity := fun hstart => h.capacity (hkeeps.capacity hstart)
    vacant := fun hold => h.vacant (hkeeps.vacant hold)
    admits_range := hkeeps.changes.admits_iff.mp h.admits_range
    admits_besideRange := hkeeps.changes.admits_iff.mp h.admits_besideRange
    admits := fun id hid hid' => hkeeps.changes.admits_iff.mp (h.admits id hid hid')
    value_eq := fun key => (h.value_eq key).trans (hkeeps.selected_eq old key) }

/-- Where the directory is there, opening leaves a log that serves what its files selected; wherever it
ends, its files select it still; and it runs to its end unless it runs out of addresses. -/
theorem achieves_openFound (h : start.WellFormed) (hseparate : config.Separate)
    (hcapacity : config.capacity ≠ 0) (hpath : index.path = config.indexLog)
    (hstaged : index.staged = ∅)
    (hleaf : start.leaf (config.place .index) = some (index.log, IndexLog.compact index.applied))
    (hduring : ∀ disk, (∀ old, config.Openable start old → config.Preserves start old disk) →
      during disk) :
    Achieves (openFound config index) start during
      (fun state disk => start.Admits (Capacity.file config.rangeFile) ∧ config.HasCapacity start ∧
        ∃ old copies, Opened config start old index.applied.toList state.1 copies disk)
      (fun fault _ => (∃ old, config.Openable start old) → fault = .arithmetic) := by
  have hbefore : during start := hduring start fun old hopen => hopen.preserves_self
  refine Achieves.bind ((SegmentRange.achieves_load _ hbefore).imp_failed ?_) ?_
  · rintro fault _ - ⟨rfl, hrefused⟩ ⟨old, hopen⟩
    exact absurd ⟨hopen.room.range, old, hopen.range_eq⟩ hrefused
  rintro old _ - ⟨rfl, horder, hloaded⟩
  -- the range that was loaded is the one in the file
  have hsame : ∀ {other}, config.Openable start other → other = old := by
    intro other hopen
    have hrange := (hloaded hopen.room.range.toReaches).2
    exact Option.some.inj (hopen.range_eq.symm.trans hrange)
  -- neither the index, nor the range, nor a segment changes with the capacity file
  have hkeeps : ∀ {disk}, start.Changes (capacityPlaces config) disk →
      (config.HasCapacity start → config.HasCapacity disk) → config.Keeps start disk := by
    intro disk hchanges hkept
    have hbytes : ∀ file, file ≠ .capacity →
        config.fileBytes disk file = config.fileBytes start file := fun file hfile =>
      Config.fileBytes_of_changes hchanges (not_mem_capacityPlaces hseparate hfile)
    exact ⟨hchanges.mono capacityPlaces_subset, hkept,
      Config.range?_congr (hbytes .range (by simp)),
      Config.indexed_congr (hbytes .index (by simp)), fun id => hbytes (.segment id) (by simp)⟩
  refine Achieves.bind ((achieves_checkCapacity h hseparate hcapacity fun disk hchanges hkept =>
    hduring disk fun other hopen => hopen.preserves_of_keeps (hkeeps hchanges hkept)).imp_failed ?_) ?_
  · rintro fault _ - hrefused ⟨other, hopen⟩
    exact absurd ⟨hopen.room.capacity, hopen.capacity⟩ hrefused
  rintro _ checked - ⟨hadmitsCapacity, hstart, hchanges, hkept⟩
  have hkeeps := hkeeps hchanges fun _ => hkept
  refine (achieves_openFresh hchanges.wellFormed hseparate hcapacity hpath hstaged
    ((hchanges.leaf_eq (not_mem_capacityPlaces hseparate (by simp))).trans hleaf) horder ?_ ?_).imp ?_ ?_
  · exact fun hreaches => hkeeps.range?_eq.trans (hloaded (hchanges.reaches_iff.mp hreaches)).2
  · refine fun disk hpreserves => hduring disk fun other hopen => ?_
    obtain rfl := hsame hopen
    have hopen' := hkeeps.openable hopen
    exact hkeeps.preserves (hpreserves hopen'.range_eq hopen'.vacant)
  · rintro state disk - ⟨copies, hopened⟩
    exact ⟨hadmitsCapacity, hstart, old, copies, hopened.of_keeps hkeeps⟩
  · rintro fault _ - hfault ⟨other, hopen⟩
    obtain rfl := hsame hopen
    have hopen' := hkeeps.openable hopen
    exact hfault hopen'.range_eq hopen'.room

/-! ## With its index -/

theorem not_mem_indexPlaces (hseparate : config.Separate) {file : ValueFile} (hfile : file ≠ .index) :
    config.place file ∉ ({config.besideIndex.place, config.place .index} : Set Location) := by
  simp [(hseparate.besideIndex file).symm, hseparate.place_ne hfile]

/-- Opening the index keeps what the files say. -/
theorem keeps_of_index (hseparate : config.Separate) {disk : Disk}
    (hchanges : start.Changes {config.besideIndex.place, config.place .index} disk)
    (hsame : config.indexed disk = config.indexed start) : config.Keeps start disk := by
  have hbytes : ∀ file, file ≠ .index →
      config.fileBytes disk file = config.fileBytes start file := fun file hfile =>
    Config.fileBytes_of_changes hchanges (not_mem_indexPlaces hseparate hfile)
  refine ⟨hchanges.mono ?_,
    fun hstart => hstart.of_changes hchanges (not_mem_indexPlaces hseparate (by simp)),
    Config.range?_congr (hbytes .range (by simp)), hsame, fun id => hbytes (.segment id) (by simp)⟩
  rintro place (rfl | rfl)
  · exact .inr (.inl rfl)
  · exact Config.place_mem_ownPlaces .index

/-- The index is opened first, and that keeps what the files say. -/
theorem achieves_openIndex (h : start.WellFormed) (hseparate : config.Separate)
    (hduring : ∀ disk, config.Keeps start disk → during disk) :
    Achieves (Index.openAt config.indexLog) start during
      (fun index disk => start.Admits config.indexLog ∧ start.Admits config.besideIndex ∧
        config.Keeps start disk ∧ (config.HasCapacity disk → config.HasCapacity start) ∧
        index.path = config.indexLog ∧ index.staged = ∅ ∧
        disk.leaf (config.place .index) = some (index.log, IndexLog.compact index.applied))
      (fun _ _ => ¬ (start.Admits config.indexLog ∧ start.Admits config.besideIndex)) := by
  refine (Index.achieves_openAt h (hseparate.besideIndex .index) fun disk hchanges hsame =>
    hduring disk (keeps_of_index hseparate hchanges hsame)).imp ?_
    fun _ _ _ hrefused => hrefused.2
  rintro index disk - ⟨hadmits, hbeside, hchanges, hpath, hstaged, happlied, hleaf⟩
  refine ⟨hadmits, hbeside, keeps_of_index hseparate hchanges ?_,
    (Config.hasCapacity_iff hchanges (not_mem_indexPlaces hseparate (by simp))).mp, hpath, hstaged,
    hleaf⟩
  rw [Config.indexed, IndexLog.replayed_of_leaf hleaf, IndexLog.replay_compact, happlied,
    Config.indexed]

/-- A valid capacity is not zero. -/
theorem capacity_ne_of_validate (h : config.validate = .ok ()) : config.capacity ≠ 0 := by
  intro hzero
  rw [Config.validate, if_pos hzero] at h
  cases h

/-- The value log of a configuration opens over an open index, where its directory is there. -/
theorem achieves_openWith (h : start.WellFormed) (hseparate : config.Separate)
    (hparent : start.HasParent config.segmentStem) (hpath : index.path = config.indexLog)
    (hstaged : index.staged = ∅)
    (hleaf : start.leaf (config.place .index) = some (index.log, IndexLog.compact index.applied))
    (hduring : ∀ disk, (∀ old, config.Openable start old → config.Preserves start old disk) →
      during disk) :
    Achieves (openWith config index) start during
      (fun state disk => config.validate = .ok () ∧
        start.Admits (Capacity.file config.rangeFile) ∧ config.HasCapacity start ∧
        ∃ old copies, Opened config start old index.applied.toList state.1 copies disk)
      (fun fault _ => config.validate = .ok () → (∃ old, config.Openable start old) →
        fault = .arithmetic) := by
  have hbefore : during start := hduring start fun old hopen => hopen.preserves_self
  rw [openWith_eq]
  cases hvalid : config.validate with
  | error cause => exact achieves_throw hbefore nofun
  | ok =>
    refine Achieves.bind (achieves_makeParent _ hparent hbefore) ?_
    rintro _ _ - rfl
    exact (achieves_openFound h hseparate (capacity_ne_of_validate hvalid) hpath hstaged hleaf
      hduring).imp (fun _ _ _ hdone => ⟨rfl, hdone⟩)
        fun _ _ _ hfault _ => hfault

/-- Where the directory is there, opening leaves a log that serves what its files selected; wherever it
ends, its files select it still; and it runs to its end unless it runs out of addresses. -/
theorem achieves_openAt (h : start.WellFormed) (hseparate : config.Separate)
    (hparent : start.HasParent config.segmentStem)
    (hduring : ∀ disk, (∀ old, config.Openable start old → config.Preserves start old disk) →
      during disk) :
    Achieves (openAt config) start during
      (fun state disk => config.validate = .ok () ∧ start.Admits config.indexLog ∧
        start.Admits config.besideIndex ∧ start.Admits (Capacity.file config.rangeFile) ∧
        config.HasCapacity start ∧ ∃ old base copies, Opened config start old base state.1 copies disk)
      (fun fault _ => config.validate = .ok () → (∃ old, config.Openable start old) →
        fault = .arithmetic) := by
  refine Achieves.bind ((achieves_openIndex h hseparate fun disk hkeeps => hduring disk fun old hopen =>
    hopen.preserves_of_keeps hkeeps).imp_failed ?_) ?_
  · rintro fault _ - hrefused - ⟨old, hopen⟩
    exact absurd ⟨hopen.room.index, hopen.room.besideIndex⟩ hrefused
  rintro index disk - ⟨hadmits, hbeside, hkeeps, hcapacity, hpath, hstaged, hleaf⟩
  refine (achieves_openWith hkeeps.changes.wellFormed hseparate
    (hparent.mono hkeeps.changes.becomes.keepsDirectories) hpath hstaged hleaf ?_).imp ?_ ?_
  · exact fun last hpreserves => hduring last fun old hopen =>
      hkeeps.preserves (hpreserves old (hkeeps.openable hopen))
  · rintro state last - ⟨hvalid, hadmitsCapacity, hsaid, old, copies, hopened⟩
    exact ⟨hvalid, hadmits, hbeside, hkeeps.changes.admits_iff.mp hadmitsCapacity, hcapacity hsaid,
      old, _, copies, hopened.of_keeps hkeeps⟩
  · rintro fault _ - hfault hvalid ⟨old, hopen⟩
    exact hfault hvalid ⟨old, hkeeps.openable hopen⟩

/-- The index is open and the directory of the segments is there, so that the log itself is opened next:
the files say what they said at the start. -/
structure Prepared (config : Config) (start : Disk) (index : Index) (disk : Disk) : Prop where
  valid : config.validate = .ok ()
  admits_index : start.Admits config.indexLog
  wellFormed : disk.WellFormed
  path_eq : index.path = config.indexLog
  staged_eq : index.staged = ∅
  index_leaf : disk.leaf (config.place .index) = some (index.log, IndexLog.compact index.applied)
  range?_eq : config.range? disk = config.range? start
  indexed_eq : config.indexed disk = config.indexed start
  segment_eq (id : UInt64) :
    config.fileBytes disk (.segment id) = config.fileBytes start (.segment id)

/-- Whatever directories are there, an opening that goes well achieves what its last steps do on files that
say the same. -/
theorem achieves_openAt_of_openFound {done : ValueLog × Recovery → Disk → Prop} (h : start.WellFormed)
    (hseparate : config.Separate)
    (hfound : ∀ index disk, Prepared config start index disk →
      Achieves (openFound config index) disk (fun _ => True) done (fun _ _ => True)) :
    Achieves (openAt config) start (fun _ => True) done (fun _ _ => True) := by
  refine Achieves.bind ((achieves_openIndex h hseparate fun _ _ => trivial).imp_failed
    fun _ _ _ _ => trivial) ?_
  rintro index disk - ⟨hadmits, -, hkeeps, -, hpath, hstaged, hleaf⟩
  rw [openWith_eq]
  cases hvalid : config.validate with
  | error cause => exact achieves_throw trivial trivial
  | ok =>
    refine Achieves.bind ((onlyGrows_makeParent config.segmentStem disk hkeeps.changes.wellFormed).mono
      (fun _ _ => trivial) (fun _ _ _ hgrows => hgrows) fun _ _ _ _ => trivial) ?_
    rintro _ grown - hgrows
    -- a directory that is made takes no file with it
    have hbytes : ∀ file, config.fileBytes grown file = config.fileBytes disk file :=
      Config.fileBytes_of_leaf_eq hgrows.leaf_eq
    exact hfound index grown
      { valid := hvalid
        admits_index := hadmits
        wellFormed := hgrows.wellFormed
        path_eq := hpath
        staged_eq := hstaged
        index_leaf := (congrFun hgrows.leaf_eq _).trans hleaf
        range?_eq := (Config.range?_congr (hbytes .range)).trans hkeeps.range?_eq
        indexed_eq := (Config.indexed_congr (hbytes .index)).trans hkeeps.indexed_eq
        segment_eq := fun id => (hbytes _).trans (hkeeps.segment_eq id) }

/-- Whatever directories are there, an opening that has gone well has done to files that say what those in
front of it did what an opening does. -/
theorem opened_openAt_anywhere (h : start.WellFormed) (hseparate : config.Separate) :
    Achieves (openAt config) start (fun _ => True)
      (fun state disk => config.validate = .ok () ∧ start.Admits config.indexLog ∧
        ∃ middle old base copies, Opened config middle old base state.1 copies disk ∧
          config.range? start = some old ∧ ∀ key, latest copies.bindings key =
            selectedValue (config.indexed start) (config.scanned start old) key)
      (fun _ _ => True) := by
  refine achieves_openAt_of_openFound h hseparate fun index disk hprepared => ?_
  refine (achieves_openFound hprepared.wellFormed hseparate (capacity_ne_of_validate hprepared.valid)
    hprepared.path_eq hprepared.staged_eq hprepared.index_leaf fun _ _ => trivial).imp ?_
    fun _ _ _ _ => trivial
  rintro state last - ⟨-, -, old, copies, hopened⟩
  refine ⟨hprepared.valid, hprepared.admits_index, disk, old, _, copies, hopened,
    hprepared.range?_eq.symm.trans hopened.range_eq, fun key => ?_⟩
  rw [hopened.value_eq key, hprepared.indexed_eq,
    Config.scanned_congr fun id _ _ => hprepared.segment_eq id]

/-- Such an opening serves what the files selected. -/
theorem achieves_openAt_anywhere (h : start.WellFormed) (hseparate : config.Separate) :
    Achieves (openAt config) start (fun _ => True)
      (fun state disk => start.Admits config.indexLog ∧ ∃ old base copies,
        config.range? start = some old ∧ state.1.Serves config disk old.next base copies [] ∧
        ∀ key, latest copies.bindings key =
          selectedValue (config.indexed start) (config.scanned start old) key)
      (fun _ _ => True) := by
  refine (opened_openAt_anywhere h hseparate).imp_done ?_
  intro state disk _ hdone
  obtain ⟨-, hadmits, _, old, base, copies, hopened, hrange, hvalue⟩ := hdone
  exact ⟨hadmits, old, base, copies, hrange, hopened.toServes, hvalue⟩

end ValueLog

end BarrierStore
