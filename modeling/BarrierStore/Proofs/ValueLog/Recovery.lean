import BarrierStore.Proofs.ValueLog.Bindings
import BarrierStore.Proofs.ValueLog.Relocation

/-!
# What recovery preserves

From its first effect to its last, recovery leaves files that select the values that the files in front
of it did. So it does not matter where a crash ends it.

The module introduces:

* `Config.HasCapacity` — the capacity file is missing or says the capacity of the configuration;
* `Config.Preserves` — a disk's files select what those of another one do, and the disks differ in
  these files only.

Main statement: `Tracks.recover`.
-/

namespace BarrierStore

open Drive

namespace Config

/-- The capacity file says the capacity of the configuration, or is missing and can be made. -/
def HasCapacity (config : Config) (disk : Disk) : Prop :=
  config.fileBytes disk .capacity = none ∧ disk.Admits config.besideCapacity ∨
    ∃ bytes, config.fileBytes disk .capacity = some bytes ∧
      Capacity.ofBytes? bytes = some config.capacity

/-- The recorded capacity does not depend on other files. -/
theorem hasCapacity_iff {config : Config} {start disk : Disk} {places : Set Location}
    (hchanges : start.Changes places disk) (hplace : config.place .capacity ∉ places) :
    config.HasCapacity disk ↔ config.HasCapacity start := by
  rw [HasCapacity, fileBytes_of_changes hchanges hplace, hchanges.admits_iff, HasCapacity]

theorem HasCapacity.of_changes {config : Config} {start disk : Disk} {places : Set Location}
    (h : config.HasCapacity start) (hchanges : start.Changes places disk)
    (hplace : config.place .capacity ∉ places) : config.HasCapacity disk :=
  (hasCapacity_iff hchanges hplace).mpr h

/-- The files of a disk select what those of `start` do with the range `old`, and a crash that left
this disk has touched nothing but the files of the value log. -/
structure Preserves (config : Config) (start : Disk) (old : SegmentRange) (disk : Disk) : Prop where
  changes : start.Changes config.ownPlaces disk
  capacity : config.HasCapacity start → config.HasCapacity disk
  exists_range : ∃ range, old.first ≤ range.first ∧ config.range? disk = some range ∧
    config.Vacant disk range.next ∧ ∀ key,
      selectedValue (config.indexed disk) (config.scanned disk range) key =
        selectedValue (config.indexed start) (config.scanned start old) key

variable {config : Config}

/-- What is preserved twice is preserved. -/
theorem Preserves.trans {start middle disk : Disk} {old : SegmentRange}
    (hchanges : start.Changes config.ownPlaces middle)
    (hcapacity : config.HasCapacity start → config.HasCapacity middle) {range : SegmentRange}
    (hfirst : old.first ≤ range.first)
    (hselected : ∀ key, selectedValue (config.indexed middle) (config.scanned middle range) key =
      selectedValue (config.indexed start) (config.scanned start old) key)
    (h : config.Preserves middle range disk) : config.Preserves start old disk where
  changes := hchanges.trans h.changes
  capacity hstart := h.capacity (hcapacity hstart)
  exists_range := by
    obtain ⟨last, hle, hrange, hvacant, hsame⟩ := h.exists_range
    exact ⟨last, UInt64.le_trans hfirst hle, hrange, hvacant,
      fun key => (hsame key).trans (hselected key)⟩

/-- The places of the files are among all places. -/
theorem place_mem_ownPlaces (file : ValueFile) : config.place file ∈ config.ownPlaces :=
  .inl ⟨file, rfl⟩

/-- So are those that a session writes to. -/
theorem sessionPlaces_subset (origin : UInt64) :
    config.sessionPlaces origin ⊆ config.ownPlaces := by
  rintro place ((rfl | rfl | rfl) | ⟨id, -, rfl⟩)
  · exact .inr (.inr (.inl rfl))
  · exact place_mem_ownPlaces .index
  · exact place_mem_ownPlaces .range
  · exact place_mem_ownPlaces (.segment id)

end Config

namespace ValueLog

variable {config : Config} {log : ValueLog} {start : Disk} {during : Disk → Prop}
  {base : List (Bytes × UInt64)} {old : SegmentRange}

theorem ofEntries_append_lines (base : List (Bytes × UInt64)) (found : Found) :
    AddressMap.ofEntries (base ++ found.lines) =
      overlay (AddressMap.ofEntries base) found.lines := by
  rw [AddressMap.ofEntries, List.foldl_append]
  rfl

/-- While the old segments are there, copies make no difference to what is selected. -/
theorem preserves_of_copied (hseparate : config.Separate) (horder : old.first ≤ old.next)
    (hindexed : config.indexed start = AddressMap.ofEntries base) {lined rest : Found}
    (hcopies : Copies (config.indexed start) (config.scanned start old) (lined ++ rest))
    (hfits : ∀ entry ∈ lined, entry.1 < UInt64.size) {disk : Disk}
    (hremains : config.Remains start old.next old.first base lined (lined ++ rest) disk) :
    config.Preserves start old disk where
  changes := hremains.changes.mono (Config.sessionPlaces_subset _)
  capacity hstart := hstart.of_changes hremains.changes
    (hseparate.not_mem_sessionPlaces (by simp) (by simp) (by simp))
  exists_range := by
    obtain ⟨next, hnext, hrange, hscanned, hvacant⟩ := hremains.exists_range
    refine ⟨⟨old.first, next⟩, UInt64.le_refl _, hrange, hvacant, fun key => ?_⟩
    have hold : config.scanned disk ⟨old.first, old.next⟩ = config.scanned start old :=
      Config.scanned_congr fun id _ hid => Config.fileBytes_of_changes hremains.changes
        (hseparate.segment_not_mem_sessionPlaces hid)
    rw [Config.scanned_append horder hnext, hold, hscanned, hremains.indexed_eq,
      ofEntries_append_lines, ← hindexed]
    exact selected_copied hcopies hfits key

/-! ## Retiring the old segments -/

/-- Every selected record has its copy, with its line, and some of the old segments may be gone. -/
structure Retiring (config : Config) (start : Disk) (old : SegmentRange) (next : UInt64)
    (base : List (Bytes × UInt64)) (copies : Found) (log : ValueLog) (disk : Disk) : Prop where
  tracks : log.Tracks config disk old.next base copies
  changes : start.Changes config.ownPlaces disk
  capacity : config.HasCapacity start → config.HasCapacity disk
  first_eq : log.range.first = old.first
  vacant : config.Vacant start next → config.Vacant disk log.range.next
  left (id : UInt64) : id < old.next →
    config.fileBytes disk (.segment id) = config.fileBytes start (.segment id) ∨
      config.fileBytes disk (.segment id) = none

/-- All that the index of `start` selects in the range `old` has been copied. -/
structure Complete (config : Config) (start : Disk) (old : SegmentRange)
    (base : List (Bytes × UInt64)) (copies : Found) : Prop where
  indexed_eq : config.indexed start = AddressMap.ofEntries base
  isCopies : Copies (config.indexed start) (config.scanned start old) copies
  all {entry : Nat × Record} :
    selected (config.indexed start) (config.scanned start old) entry.2.key = some entry →
      ∃ address, (address, entry.2) ∈ copies

section Retire

variable {next : UInt64} {copies : Found} {disk : Disk}

/-- Records that are still there were there in front. -/
theorem Retiring.mem_scanned (h : Retiring config start old next base copies log disk)
    {entry : Nat × Record} (hentry : entry ∈ config.scanned disk old) :
    entry ∈ config.scanned start old := by
  obtain ⟨id, hfirst, hnext, hmem⟩ := Config.mem_scanned_iff.mp hentry
  refine Config.mem_scanned_iff.mpr ⟨id, hfirst, hnext, ?_⟩
  rcases h.left id hnext with hsame | hgone
  · rwa [Config.scannedSegment_congr hsame] at hmem
  · rw [Config.scannedSegment_of_none hgone] at hmem
    cases hmem

/-- Whatever is gone of the old segments, and whether or not they still count. -/
theorem Retiring.preserves (h : Retiring config start old next base copies log disk)
    (hcomplete : Complete config start old base copies) (horder : old.first ≤ old.next)
    (hvacant : config.Vacant start next) : config.Preserves start old disk where
  changes := h.changes
  capacity := h.capacity
  exists_range := by
    refine ⟨log.range, UInt64.le_of_eq h.first_eq.symm, h.tracks.range?_eq, h.vacant hvacant,
      fun key => ?_⟩
    have hrange : log.range = ⟨old.first, log.range.next⟩ := by rw [← h.first_eq]
    rw [hrange, Config.scanned_append horder h.tracks.origin_le_next, h.tracks.scanned_eq,
      h.tracks.indexed_eq, ofEntries_append_lines, ← hcomplete.indexed_eq]
    exact selected_retired hcomplete.isCopies h.tracks.fits (fun _ => hcomplete.all)
      (fun _ => h.mem_scanned) key

/-- Other files may change while the old segments go. -/
theorem Retiring.of_changes (h : Retiring config start old next base copies log disk)
    {last : Disk} {places : Set Location} (hchanges : disk.Changes places last)
    (hown : places ⊆ config.ownPlaces)
    (hindex : config.place .index ∉ places) (hrange : config.place .range ∉ places)
    (hcapacity : config.place .capacity ∉ places)
    (hsegment : ∀ id, old.next ≤ id → config.place (.segment id) ∉ places)
    (hleft : ∀ id, id < old.next →
      config.fileBytes last (.segment id) = config.fileBytes disk (.segment id) ∨
        config.fileBytes last (.segment id) = none) :
    Retiring config start old next base copies log last where
  tracks := h.tracks.of_changes hchanges hindex hrange hsegment
  changes := h.changes.trans (hchanges.mono hown)
  capacity hstart := (h.capacity hstart).of_changes hchanges hcapacity
  first_eq := h.first_eq
  vacant hvacant id hid := by
    rw [Config.fileBytes_of_changes hchanges
      (hsegment id (UInt64.le_trans h.tracks.origin_le_next hid))]
    exact h.vacant hvacant id hid
  left id hid := by
    rcases hleft id hid with hsame | hgone
    · rw [hsame]
      exact h.left id hid
    · exact .inr hgone

/-- An old segment is removed, or was not there. -/
theorem Retiring.remove (h : Retiring config start old next base copies log disk)
    (hseparate : config.Separate) {id : UInt64} (hold : id < old.next)
    (hduring : ∀ last, Retiring config start old next base copies log last → during last) :
    Achieves (log.removeSegment id) disk during
      (fun _ last => Retiring config start old next base copies log last)
      (fun _ _ => ¬ start.Admits (config.segmentFile id)) := by
  -- no other file goes with the segment
  have hremoved : ∀ last, disk.Becomes (Function.update disk.leaf
        (config.place (.segment id)) none) last →
      Retiring config start old next base copies log last := by
    intro last hbecomes
    have hother : ∀ file, file ≠ .segment id →
        config.place file ∉ ({config.place (.segment id)} : Set Location) := fun file hfile =>
      hseparate.place_ne hfile
    refine h.of_changes hbecomes.changes_update ?_ (hother _ (by simp)) (hother _ (by simp))
      (hother _ (by simp)) (fun other hid => hother _ ?_) fun other hid => ?_
    · rintro place rfl
      exact Config.place_mem_ownPlaces _
    · exact (ValueFile.segment_ne (UInt64.lt_of_lt_of_le hold hid)).symm
    · by_cases heq : other = id
      · refine .inr ?_
        rw [heq, Config.fileBytes, Disk.bytesAt, hbecomes.leaf_eq, Function.update_self]
        rfl
      · exact .inl (Config.fileBytes_of_changes hbecomes.changes_update (hother _ (by simpa using heq)))
  unfold removeSegment
  rw [segmentFile_eq h.tracks.stem_eq]
  -- a segment that was not there counts as removed
  refine Achieves.bind (m := fun outcome last =>
      Retiring config start old next base copies log last ∧
        ∀ fault, outcome = .error fault → ∃ cause, fault = .io cause ∧
          (start.Admits (config.segmentFile id) → cause = .notFound))
    (Achieves.attempt ((achieves_remove h.tracks.wellFormed _ (hduring disk h)
      fun last hlast => hduring last (hremoved last hlast)).imp ?_ ?_)) ?_
  · exact fun _ last _ hlast => ⟨hremoved last hlast, by simp⟩
  · rintro fault _ - ⟨rfl, cause, rfl, -, hadmits⟩
    refine ⟨h, fun fault hfault => ⟨cause, (Except.error.inj hfault).symm, fun hstart => ?_⟩⟩
    exact hadmits (h.changes.admits_iff.mpr hstart)
  rintro outcome last hlast ⟨hretiring, houtcome⟩
  split
  · exact achieves_pure hlast hretiring
  · exact achieves_pure hlast hretiring
  · rename_i fault hother
    obtain ⟨cause, rfl, hcause⟩ := houtcome _ rfl
    refine achieves_throw hlast fun hadmits => ?_
    rw [hcause hadmits] at hother
    exact hother rfl

/-! ## The range that is left -/

theorem Retiring.not_mem_beside (hseparate : config.Separate) (file : ValueFile) :
    config.place file ∉ ({config.besideRange.place} : Set Location) :=
  (hseparate.besideRange file).symm

/-- While the range file is being replaced, the old range counts. -/
theorem Retiring.of_pending (h : Retiring config start old next base copies log disk)
    (hseparate : config.Separate) {last : Disk}
    (hchanges : disk.Changes {config.besideRange.place, config.place .range} last)
    (hsame : last.leaf (config.place .range) = disk.leaf (config.place .range)) :
    Retiring config start old next base copies log last := by
  -- only the file beside the range file has changed so far
  have hbeside : disk.Changes {config.besideRange.place} last := by
    refine (hchanges.of_leaf_eq hsame).mono fun place hplace => ?_
    exact hplace.1.resolve_right hplace.2
  have hother := not_mem_beside hseparate
  refine h.of_changes hbeside ?_ (hother _) (hother _) (hother _) (fun _ _ => hother _) fun id _ =>
    .inl (Config.fileBytes_of_changes hbeside (hother _))
  rintro place rfl
  exact .inr (.inr (.inl rfl))

/-- The range that starts behind the old segments takes the place of the one with them. -/
theorem Retiring.finish (h : Retiring config start old next base copies log disk)
    (hseparate : config.Separate) {last : Disk}
    (hchanges : disk.Changes {config.besideRange.place, config.place .range} last)
    (hbytes : config.fileBytes last .range =
      some (Utf8.encode (SegmentRange.encode ⟨old.next, log.range.next⟩))) :
    Retiring config start ⟨old.next, old.next⟩ next base copies
      { log with range := { log.range with first := old.next } } last := by
  -- the range file says another range, and all other files say what they said
  have hother : ∀ file, file ≠ .range → config.place file ∉
      ({config.besideRange.place, config.place .range} : Set Location) := by
    intro file hfile
    simp [(hseparate.besideRange file).symm, hseparate.place_ne hfile]
  have hkept : ∀ file, file ≠ .range →
      config.fileBytes last file = config.fileBytes disk file := fun file hfile =>
    Config.fileBytes_of_changes hchanges (hother file hfile)
  refine { tracks := ?_, changes := ?_, capacity := ?_, first_eq := rfl, vacant := ?_, left := ?_ }
  · have hindex := hchanges.leaf_eq (hother .index (by simp))
    have hactive := hchanges.leaf_eq (hother (.segment log.active.id) (by simp))
    exact { h.tracks with
      wellFormed := hchanges.wellFormed
      index_leaf := hindex.trans h.tracks.index_leaf
      range_bytes := hbytes
      first_le := UInt64.le_refl _
      active_leaf := by
        rw [hactive]
        exact h.tracks.active_leaf
      scanned_eq := by
        rw [← h.tracks.scanned_eq]
        exact Config.scanned_congr fun id _ _ => hkept _ (by simp)
      reaches := hchanges.reaches_iff.mpr h.tracks.reaches }
  · refine h.changes.trans (hchanges.mono ?_)
    rintro place (rfl | rfl)
    · exact .inr (.inr (.inl rfl))
    · exact Config.place_mem_ownPlaces .range
  · exact fun hstart => (h.capacity hstart).of_changes hchanges (hother _ (by simp))
  · exact fun hvacant => (h.vacant hvacant).of_changes hchanges fun _ _ => hother _ (by simp)
  · intro id hid
    rw [hkept _ (by simp)]
    exact h.left id hid

/-- With the old segments out of the range, the copies are all that is left. -/
theorem Retiring.preserves_of_finished
    (h : Retiring config start ⟨old.next, old.next⟩ next base copies log disk)
    (hcomplete : Complete config start old base copies) (horder : old.first ≤ old.next)
    (hvacant : config.Vacant start next) : config.Preserves start old disk where
  changes := h.changes
  capacity := h.capacity
  exists_range := by
    refine ⟨log.range, ?_, h.tracks.range?_eq, h.vacant hvacant, fun key => ?_⟩
    · rw [h.first_eq]
      exact horder
    · -- nothing of the old segments is in the range
      have hfirst : log.range.first = old.next := h.first_eq
      have hscanned : config.scanned disk log.range = [] ++ copies := by
        rw [List.nil_append, ← h.tracks.scanned_eq, ← hfirst]
      rw [hscanned, h.tracks.indexed_eq, ofEntries_append_lines, ← hcomplete.indexed_eq]
      exact selected_retired hcomplete.isCopies h.tracks.fits (fun _ => hcomplete.all)
        (by simp) key

/-- The old segments are removed one by one. -/
theorem Retiring.achieves_removeAll (h : Retiring config start old next base copies log disk)
    (hseparate : config.Separate)
    (hduring : ∀ last, Retiring config start old next base copies log last → during last) :
    Achieves (old.ids.forM log.removeSegment) disk during
      (fun _ last => Retiring config start old next base copies log last)
      (fun _ _ => ∃ id ∈ old.ids, ¬ start.Admits (config.segmentFile id)) := by
  refine achieves_forM (fun _ last => Retiring config start old next base copies log last)
    (hduring disk h) h fun front id rest hids last _ hlast => ?_
  have hid : id ∈ old.ids := by simp [hids]
  exact (hlast.remove hseparate (SegmentRange.mem_ids_iff.mp hid).2 hduring).imp_failed
    fun _ _ _ hrefused => ⟨id, hid, hrefused⟩

/-- The range file is the last to change; until then the old range counts. -/
theorem Retiring.achieves_finish (h : Retiring config start old next base copies log disk)
    (hseparate : config.Separate) (hcomplete : Complete config start old base copies)
    (horder : old.first ≤ old.next)
    (hduring : ∀ last, (config.Vacant start next → config.Preserves start old last) → during last) :
    Achieves (SegmentRange.store log.rangeFile ⟨old.next, log.range.next⟩) disk during
      (fun _ last => Retiring config start ⟨old.next, old.next⟩ next base copies
        { log with range := { log.range with first := old.next } } last)
      (fun _ _ => ¬ (start.Admits config.rangeFile ∧ start.Admits config.besideRange)) := by
  rw [h.tracks.rangeFile_eq]
  refine (achieves_replaceFile_of_changes h.tracks.wellFormed (hseparate.besideRange .range) _
    ?_).imp ?_ ?_
  · rintro last hchanges (hsame | ⟨-, hbytes⟩)
    · exact hduring last fun hvacant =>
        (h.of_pending hseparate hchanges hsame).preserves hcomplete horder hvacant
    · exact hduring last fun hvacant =>
        (h.finish hseparate hchanges hbytes).preserves_of_finished hcomplete horder hvacant
  · rintro _ last - ⟨-, -, hchanges, file, hleaf⟩
    rw [← h.tracks.rangeFile_eq]
    exact h.finish hseparate hchanges (Disk.bytesAt_of_leaf hleaf)
  · rintro _ last - ⟨-, hrefused⟩ hstart
    exact hrefused ⟨h.changes.admits_iff.mpr hstart.1, h.changes.admits_iff.mpr hstart.2⟩

end Retire

/-! ## The whole of it -/

/-- When every selected record has its copy, the bindings of the copies are all that stays. -/
theorem retained_union {map best : AddressMap} {found copies : Found} (hbest : Selects map found best)
    (hall : ∀ entry, selected map found entry.2.key = some entry →
      ∃ address, (address, entry.2) ∈ copies) :
    (map.filter fun key _ => best.contains key) ∪ AddressMap.ofEntries copies.lines =
      AddressMap.ofEntries copies.lines := by
  refine Std.ExtTreeMap.ext_getElem? fun {key} => ?_
  rw [Std.ExtTreeMap.getElem?_union, getElem?_ofEntries, Found.latest_lines,
    Std.ExtTreeMap.getElem?_filter']
  rcases hlast : copies.last? key with _ | entry
  · -- no copy: no record of the key was selected, and so it is forgotten
    have hnone : best[key]? = none := by
      rw [hbest key]
      rcases hselected : selected map found key with _ | entry
      · rfl
      · obtain rfl := (mem_of_selected hselected).2
        obtain ⟨address, hcopy⟩ := hall entry hselected
        exact absurd rfl (Found.last?_eq_none_iff.mp hlast (address, entry.2) hcopy)
    have hforgotten : best.contains key = false := by
      rw [Std.ExtTreeMap.contains_eq_isSome_getElem?, hnone]
      rfl
    simp [hforgotten]
  · rfl

/-- What a completed recovery has done. -/
structure Recovered (config : Config) (start : Disk) (old : SegmentRange) (next : UInt64)
    (base : List (Bytes × UInt64)) (log : ValueLog) (copies : Found) (disk : Disk) : Prop
    extends log.Serves config disk old.next base copies [] where
  changes : start.Changes config.ownPlaces disk
  capacity : config.HasCapacity start → config.HasCapacity disk
  vacant : config.Vacant start next → config.Vacant disk log.range.next
  admits (id : UInt64) : id ∈ old.ids → start.Admits (config.segmentFile id)
  value_eq (key : Bytes) : latest copies.bindings key =
    selectedValue (config.indexed start) (config.scanned start old) key

/-- Once all copies are made, the old segments may go. -/
theorem Relocated.retiring {map : AddressMap} {range : SegmentRange} {front copies : Found}
    {disk last : Disk}
    (h : Relocated config start old.next base map (config.scanned start old) range front copies log
      disk)
    (hseparate : config.Separate) (hfirst : range.first = old.first)
    (hlast : disk.Changes ∅ last) :
    Retiring config start old range.next base copies log last := by
  have hchanges : start.Changes (config.sessionPlaces old.next) last :=
    h.changes.trans (hlast.mono (Set.empty_subset _))
  refine { tracks := h.tracks.of_changes hlast (by simp) (by simp) (by simp),
           changes := hchanges.mono (Config.sessionPlaces_subset _),
           capacity := ?_, first_eq := h.first_eq.trans hfirst, vacant := ?_, left := ?_ }
  · exact fun hstart => hstart.of_changes hchanges
      (hseparate.not_mem_sessionPlaces (by simp) (by simp) (by simp))
  · exact fun hvacant => (h.vacant hvacant).of_changes hlast (by simp)
  · exact fun id hid => .inl (Config.fileBytes_of_changes hchanges
      (hseparate.segment_not_mem_sessionPlaces hid))

/-- When the last segment has been worked off, every selected record has its copy. -/
theorem Relocated.complete {map : AddressMap} {range : SegmentRange} {copies : Found} {disk : Disk}
    (h : Relocated config start old.next base map (config.scanned start old) range
      (config.scanned start old) copies log disk)
    (hmap : config.indexed start = map) (hbase : map = AddressMap.ofEntries base) :
    Complete config start old base copies where
  indexed_eq := hmap.trans hbase
  isCopies := by
    rw [hmap]
    exact copies_of_chosen (Config.ascending_scanned _ _ _) (List.append_nil _).symm h.records_eq
  all hselected := by
    rw [hmap] at hselected
    exact exists_copy_of_chosen h.records_eq hselected

/-- The copies are durable, and they are what the index holds. -/
theorem Relocated.sync {map best : AddressMap} {range : SegmentRange} {copies : Found} {disk : Disk}
    (h : Relocated config start old.next base map (config.scanned start old) range
      (config.scanned start old) copies log disk)
    (hseparate : config.Separate) (hfirst : range.first = old.first)
    (hbest : Selects map (config.scanned start old) best)
    (hduring : ∀ last, disk.Changes ∅ last → during last) :
    Meets { log with index := log.index.retain best.contains }.sync disk during
      fun log' last => log'.index.applied = AddressMap.ofEntries copies.lines ∧
        log'.index.staged = ∅ ∧ Retiring config start old range.next base copies log' last := by
  have hsame : ∀ {last}, disk.Becomes disk.leaf last → disk.Changes ∅ last := fun hlast =>
    hlast.changes fun _ _ => rfl
  rw [sync_eq]
  refine Meets.bind (meets_sync h.tracks.wellFormed log.active.file fun last hlast =>
    hduring last (hsame hlast)) ?_
  rintro _ middle - hmiddle
  refine Meets.bind (meets_sync hmiddle.wellFormed log.index.log fun last hlast =>
    hduring last ((hsame hmiddle).trans (hlast.changes fun _ _ => rfl))) ?_
  rintro _ last hdisk hlast
  have hretiring := h.retiring hseparate hfirst ((hsame hmiddle).trans (hlast.changes fun _ _ => rfl))
  refine meets_pure hdisk ⟨?_, rfl, { hretiring with tracks := { hretiring.tracks with } }⟩
  -- the keys without a copy are dropped, and the copies are laid over the others
  rw [Index.retain, h.staged_eq, h.applied_eq]
  exact retained_union hbest fun _ => exists_copy_of_chosen h.records_eq

/-- Recovery leaves a log that serves what its files selected, and wherever it ends, its files select
it still. -/
theorem Tracks.recover (h : log.Tracks config start old.next base []) (hseparate : config.Separate)
    (hcapacity : config.capacity ≠ 0) (horder : old.first ≤ old.next)
    (hfirst : log.range.first = old.first)
    (happlied : log.index.applied = AddressMap.ofEntries base) (hstaged : log.index.staged = ∅)
    (hduring : ∀ disk, (config.Vacant start log.range.next → config.Preserves start old disk) →
      during disk) :
    Achieves (log.recover old) start during
      (fun state disk => ∃ copies, Recovered config start old log.range.next base state.1 copies disk)
      (fun fault _ => config.HasRoom start old.first → fault = .arithmetic) := by
  have hindexed : config.indexed start = AddressMap.ofEntries base := by
    rw [h.indexed_eq]
    exact congrArg _ (List.append_nil _)
  have hcopied : ∀ lined rest disk,
      Copies log.index.applied (config.scanned start old) (lined ++ rest) →
      (∀ entry ∈ lined, entry.1 < UInt64.size) →
      (config.Vacant start log.range.next →
        config.Remains start old.next log.range.first base lined (lined ++ rest) disk) →
      during disk := by
    intro lined rest disk hcopies hfits hremains
    rw [happlied, ← hindexed] at hcopies
    rw [hfirst] at hremains
    exact hduring disk fun hvacant =>
      preserves_of_copied hseparate horder hindexed hcopies hfits (hremains hvacant)
  have hbefore : during start := by
    refine hcopied [] [] start ⟨by simp, .nil⟩ (by simp) h.remains
  have hreaches : ∀ id ∈ old.ids, start.Reaches (config.segmentFile id) := fun id hid =>
    h.reaches_of_lt (SegmentRange.mem_ids_iff.mp hid).2
  have hroom : config.HasRoom start old.first →
      ∀ id ∈ old.ids, start.Admits (config.segmentFile id) := fun hroom id hid =>
    hroom.segment id (SegmentRange.mem_ids_iff.mp hid).1
  unfold ValueLog.recover
  refine Achieves.bind
    ((achieves_survivors h.stem_eq h.capacity_eq hreaches hbefore).imp_failed ?_) ?_
  · exact fun _ _ _ hfault hstart => hfault (hroom hstart)
  rintro best _ - ⟨rfl, hadmits, hbest, hfits⟩
  have hnext : old.first ≤ log.range.next := UInt64.le_trans horder h.origin_le_next
  refine Achieves.bind
    ((achieves_relocate (h.relocated hstaged) hseparate hcapacity hfits hbest hcopied).imp_failed ?_) ?_
  · exact fun _ _ _ hfault hstart => hfault (hstart.mono hnext) (hroom hstart)
  rintro ⟨moved, report⟩ disk - ⟨copies, hmoved⟩
  have hcomplete := hmoved.complete (hindexed.trans happlied.symm) happlied
  -- from here on every selected record has its copy
  have hretiring : ∀ {log' last}, Retiring config start old log.range.next base copies log' last →
      during last := fun hlast =>
    hduring _ fun hvacant => hlast.preserves hcomplete horder hvacant
  refine Achieves.bind (achieves_lift (hmoved.sync hseparate hfirst hbest fun last hlast =>
    hretiring (hmoved.retiring hseparate hfirst hlast))) ?_
  rintro synced last - ⟨happlied', hstaged', hsynced⟩
  refine Achieves.bind ((hsynced.achieves_removeAll hseparate fun _ => hretiring).imp_failed ?_) ?_
  · rintro _ _ - ⟨id, hid, hrefused⟩ hstart
    exact absurd (hroom hstart id hid) hrefused
  rintro _ cleared - hcleared
  refine Achieves.bind
    ((hcleared.achieves_finish hseparate hcomplete horder hduring).imp_failed ?_) ?_
  · exact fun _ _ _ hrefused hstart => absurd ⟨hstart.range, hstart.besideRange⟩ hrefused
  rintro _ last hdisk hlast
  refine achieves_pure hdisk ⟨copies, ?_⟩
  have hempty : copies ++ [] = copies := List.append_nil _
  exact {
    toTracks := hempty.symm ▸ hlast.tracks
    first_eq := rfl
    applied_eq := happlied'
    staged_eq := hstaged'
    changes := hlast.changes
    capacity := hlast.capacity
    vacant := hlast.vacant
    admits := hadmits
    value_eq := latest_copies hcomplete.isCopies fun _ => hcomplete.all }

end ValueLog

end BarrierStore
