import BarrierStore.Proofs.ValueLog.Contract
import BarrierStore.Proofs.ValueLog.Placement
import BarrierStore.Proofs.ValueLog.Representation
import BarrierStore.Proofs.ValueLog.Tally

/-!
# What an opening reclaims

An opening copies one record of each key that it serves into fresh segments, drops all other records, and
removes the segments that it copied from. What it reports can be told from the files in front of it.

The module introduces:

* `ValueLog.Ready` — an open log with a fresh segment, over files that say what they said before;
* `ValueLog.Compacted` — what recovery has copied, counted and removed;
* `ValueLog.Retired` — the old segments are gone, and no other one has changed;
* `ValueLog.Reclaimed` — an open log, and what was reclaimed when it was opened;
* `Config.bytesIn` — the bytes in the segments of a range.

Main statements: `achieves_openAt_of_recover`, by which an opening achieves what recovery achieves,
`openAt_compacted`, and `ValueLog.reclaims_of_openAt`.
-/

namespace BarrierStore

open Drive

/-- Records take the sum of their lengths. -/
theorem Record.length_encodeAll (records : List Record) :
    (encodeAll records).length = (records.map length).sum := by
  simp [encodeAll, List.length_flatMap]

/-- How many bytes the segments of a range have. -/
def Config.bytesIn (config : Config) (disk : Disk) (range : SegmentRange) : Nat :=
  (range.ids.map fun id => ((config.fileBytes disk (.segment id)).getD []).length).sum

/-- Where a file could be and is not, nothing is found. -/
theorem Disk.Admits.nodeAt_of_none {disk : Disk} {path : Path} (h : disk.Admits path)
    (hnone : disk.bytesAt path.place = none) : disk.nodeAt path = .error .notFound := by
  rw [h.toReaches.nodeAt_eq]
  rcases hnode : disk.node? path.place with _ | _ | id
  · rfl
  · exact absurd hnode h.node_ne
  · rw [Disk.bytesAt_of_leaf (Disk.leaf_of_file hnode)] at hnone
    cases hnone

namespace ValueLog

variable {config : Config} {log : ValueLog} {start middle disk : Disk} {old : SegmentRange}
  {report : Recovery} {index : Index} {base : List (Bytes × UInt64)}

/-! ## From recovery to opening -/

/-- The log has a fresh segment behind the old ones, an empty one, and its files say what those of `start`
did. -/
structure Ready (config : Config) (start : Disk) (old : SegmentRange) (log : ValueLog) (disk : Disk) :
    Prop where
  order : old.first ≤ old.next
  tracks : log.Tracks config disk old.next log.index.applied.toList []
  staged_eq : log.index.staged = ∅
  spot_eq : log.spot = Spot.start old.next
  indexed_eq : config.indexed disk = config.indexed start
  bytes_eq (id : UInt64) : id ≠ old.next →
    config.fileBytes disk (.segment id) = config.fileBytes start (.segment id)

namespace Ready

theorem indexed_applied (h : Ready config start old log disk) :
    config.indexed start = log.index.applied := by
  rw [← h.indexed_eq, h.tracks.indexed_eq]
  exact (congrArg _ (List.append_nil _)).trans (Index.ofEntries_toList _)

theorem scanned_eq (h : Ready config start old log disk) :
    config.scanned disk old = config.scanned start old :=
  Config.scanned_congr fun id _ hid => h.bytes_eq id (UInt64.ne_of_lt hid)

theorem tornCount_eq (h : Ready config start old log disk) :
    config.tornCount disk old.ids = config.tornCount start old.ids := by
  refine List.countP_congr fun id hid => ?_
  rw [Config.scan, h.bytes_eq id (UInt64.ne_of_lt (SegmentRange.mem_ids_iff.mp hid).2), Config.scan]

theorem of_bytes (h : Ready config middle old log disk)
    (hindexed : config.indexed middle = config.indexed start)
    (hbytes : ∀ id, config.fileBytes middle (.segment id) = config.fileBytes start (.segment id)) :
    Ready config start old log disk :=
  { h with
    indexed_eq := h.indexed_eq.trans hindexed
    bytes_eq := fun id hid => (h.bytes_eq id hid).trans (hbytes id) }

end Ready

/-- With the directory there, an opening achieves what recovery does once all is ready for it. -/
theorem achieves_openFound_of_recover {done : ValueLog × Recovery → Disk → Prop} (h : start.WellFormed)
    (hseparate : config.Separate) (hcapacity : config.capacity ≠ 0)
    (hpath : index.path = config.indexLog) (hstaged : index.staged = ∅)
    (hleaf : start.leaf (config.place .index) = some (index.log, IndexLog.compact index.applied))
    (hrecover : ∀ old log disk, config.range? start = some old → Ready config start old log disk →
      Achieves (log.recover old) disk (fun _ => True) done (fun _ _ => True)) :
    Achieves (openFound config index) start (fun _ => True) done (fun _ _ => True) := by
  refine Achieves.bind ((SegmentRange.achieves_load _ trivial).imp_failed fun _ _ _ _ => trivial) ?_
  rintro old _ - ⟨rfl, horder, hloaded⟩
  refine Achieves.bind ((achieves_checkCapacity h hseparate hcapacity fun _ _ _ =>
    trivial).imp_failed fun _ _ _ _ => trivial) ?_
  rintro _ checked - ⟨-, -, hchecked, -⟩
  unfold openFresh
  split
  case h_2 => exact achieves_throw trivial trivial
  rename_i range hgrow
  obtain ⟨hfirst, hnext⟩ := SegmentRange.of_grow? hgrow
  rw [← bind_assoc]
  refine Achieves.bind ((achieves_grow hchecked.wellFormed hseparate
    (hfirst ▸ UInt64.le_trans horder (SegmentRange.le_next hnext)) old.next
      fun _ _ _ => trivial).imp_failed fun _ _ _ _ => trivial) ?_
  rintro file grown - ⟨hadmits, -, hsegment, hgrown, hbytes, hfresh⟩
  have hleaf' := (hchecked.leaf_eq (not_mem_capacityPlaces hseparate (by simp))).trans hleaf
  -- neither the capacity file nor the fresh segment says anything of the old ones
  have hother : ∀ file, file ≠ .capacity → file ≠ .range → file ≠ .segment old.next →
      config.fileBytes grown file = config.fileBytes start file := by
    intro file hcapacityFile hrangeFile hfreshFile
    rw [Config.fileBytes_of_changes hgrown (hseparate.not_mem_growthPlaces hrangeFile hfreshFile),
      Config.fileBytes_of_changes hchecked (not_mem_capacityPlaces hseparate hcapacityFile)]
  exact hrecover old _ grown (hloaded (hchecked.reaches_iff.mp hadmits.toReaches)).2
    { order := horder
      tracks := tracks_of_fresh hseparate hpath hleaf' horder hfirst hnext hgrown hsegment hbytes hfresh
      staged_eq := hstaged
      spot_eq := rfl
      indexed_eq := Config.indexed_congr (hother .index (by simp) (by simp) (by simp))
      bytes_eq := fun id hid => hother _ (by simp) (by simp) (by simpa using hid) }

/-- An opening achieves what recovery does once all is ready for it. -/
theorem achieves_openAt_of_recover {done : ValueLog × Recovery → Disk → Prop} (h : start.WellFormed)
    (hseparate : config.Separate)
    (hrecover : ∀ old log disk, config.capacity ≠ 0 → config.range? start = some old →
      Ready config start old log disk →
        Achieves (log.recover old) disk (fun _ => True) done (fun _ _ => True)) :
    Achieves (openAt config) start (fun _ => True) done (fun _ _ => True) := by
  refine achieves_openAt_of_openFound h hseparate fun index disk hprepared => ?_
  have hcapacity := capacity_ne_of_validate hprepared.valid
  refine achieves_openFound_of_recover hprepared.wellFormed hseparate hcapacity hprepared.path_eq
    hprepared.staged_eq hprepared.index_leaf fun old log last hrange hready => ?_
  exact hrecover old log last hcapacity (hprepared.range?_eq.symm.trans hrange)
    (hready.of_bytes hprepared.indexed_eq hprepared.segment_eq)

/-! ## What recovery reclaims -/

/-- What recovery has copied, counted and removed. -/
structure Compacted (config : Config) (start : Disk) (old : SegmentRange) (log : ValueLog)
    (report : Recovery) (disk : Disk) : Prop where
  scanned_eq : report.scanned = old.ids.length
  relocated_eq : report.relocated = (config.live start old).length
  total_eq : report.relocated + report.dropped = (config.scanned start old).length
  torn_eq : report.torn = config.tornCount start old.ids
  laid_eq : config.scanned disk log.range =
    (Spot.start old.next).laid config.capacity.toNat (config.live start old)
  spot_eq : log.spot = (Spot.start old.next).after config.capacity.toNat (config.live start old)
  gone (id : UInt64) : old.first ≤ id → id < old.next → config.fileBytes disk (.segment id) = none
  removed (id : UInt64) : old.first ≤ id → id < old.next →
    disk.nodeAt (config.segmentFile id) = .error .notFound

/-- An old segment goes, or was not there, and no other file changes. -/
theorem gone_removeSegment (h : disk.WellFormed) (hstem : log.segmentStem = config.segmentStem)
    {id : UInt64} (hreaches : disk.Reaches (config.segmentFile id)) :
    Achieves (log.removeSegment id) disk (fun _ => True)
      (fun _ last => disk.Changes {config.place (.segment id)} last ∧
        config.fileBytes last (.segment id) = none) (fun _ _ => True) := by
  unfold removeSegment
  rw [segmentFile_eq hstem]
  refine Achieves.bind (m := fun outcome last => disk.Changes {config.place (.segment id)} last ∧
      (outcome = .ok () ∨ outcome = .error (.io .notFound) →
        config.fileBytes last (.segment id) = none))
    (Achieves.attempt ((achieves_remove h (config.segmentFile id) trivial fun _ _ => trivial).imp
      ?_ ?_)) ?_
  · rintro _ last - hbecomes
    exact ⟨hbecomes.changes_update, fun _ => congrArg (Option.map Prod.snd)
      ((congrFun hbecomes.leaf_eq _).trans (Function.update_self _ _ _))⟩
  · rintro fault _ - ⟨rfl, cause, rfl, hmissing, -⟩
    refine ⟨.refl h, fun houtcome => ?_⟩
    obtain rfl : cause = .notFound := by simpa using houtcome
    exact congrArg (Option.map Prod.snd) (hmissing hreaches rfl)
  -- that it was not there is no fault
  rintro outcome last - ⟨hchanges, hgone⟩
  split
  · exact achieves_pure trivial ⟨hchanges, hgone (.inl rfl)⟩
  · exact achieves_pure trivial ⟨hchanges, hgone (.inr rfl)⟩
  · exact achieves_throw trivial trivial

/-- All old segments go, and no other file changes. -/
theorem gone_removeAll (h : disk.WellFormed) (hseparate : config.Separate)
    (hstem : log.segmentStem = config.segmentStem)
    (hreaches : ∀ id ∈ old.ids, disk.Reaches (config.segmentFile id)) :
    Achieves (old.ids.forM log.removeSegment) disk (fun _ => True)
      (fun _ last => disk.Changes {place | ∃ id ∈ old.ids, config.place (.segment id) = place} last ∧
        ∀ id ∈ old.ids, config.fileBytes last (.segment id) = none) (fun _ _ => True) := by
  refine achieves_forM (fun ids last =>
    disk.Changes {place | ∃ id ∈ old.ids, config.place (.segment id) = place} last ∧
      ∀ id ∈ ids, config.fileBytes last (.segment id) = none) trivial ⟨.refl h, by simp⟩ ?_
  rintro front id rest hids last - ⟨hchanges, hgone⟩
  have hid : id ∈ old.ids := by simp [hids]
  refine (gone_removeSegment hchanges.wellFormed hstem
    (hchanges.reaches_iff.mpr (hreaches id hid))).imp_done ?_
  rintro _ last' - ⟨hchanges', hgone'⟩
  refine ⟨hchanges.trans (hchanges'.mono ?_), fun other hother => ?_⟩
  · rintro place rfl
    exact ⟨id, hid, rfl⟩
  · by_cases hsame : other = id
    · rw [hsame, hgone']
    · have hother := hgone other ((List.mem_append.mp hother).resolve_right (by simpa using hsame))
      rw [Config.fileBytes_of_changes hchanges' (hseparate.place_ne (by simpa using hsame)), hother]

/-- The old segments are gone, and the others have their bytes. -/
structure Retired (config : Config) (old : SegmentRange) (start disk : Disk) : Prop where
  gone {id : UInt64} : id ∈ old.ids → config.fileBytes disk (.segment id) = none
  fileBytes_eq {id : UInt64} : id ∉ old.ids →
    config.fileBytes disk (.segment id) = config.fileBytes start (.segment id)
  admits_iff {path : Path} : start.Admits path ↔ disk.Admits path

/-- Where a range is stored, no segment changes. -/
theorem Retired.store (h : Retired config old start middle) (hwell : middle.WellFormed)
    (hseparate : config.Separate) (hfile : log.rangeFile = config.rangeFile) (range : SegmentRange) :
    Achieves (range.store log.rangeFile) middle (fun _ => True)
      (fun _ => Retired config old start) (fun _ _ => True) := by
  rw [hfile]
  refine (achieves_replaceFile_of_changes hwell (hseparate.besideRange .range) _
    fun _ _ _ => trivial).imp ?_ fun _ _ _ _ => trivial
  rintro _ disk - ⟨-, -, hchanges, -⟩
  have hsame (id : UInt64) :
      config.fileBytes disk (.segment id) = config.fileBytes middle (.segment id) := by
    refine Config.fileBytes_of_changes hchanges ?_
    rintro (hplace | (hplace : config.place (.segment id) = config.place .range))
    · exact hseparate.besideRange (.segment id) hplace.symm
    · exact hseparate.place_ne (by simp) hplace
  exact ⟨fun hid => (hsame _).trans (h.gone hid), fun hid => (hsame _).trans (h.fileBytes_eq hid),
    h.admits_iff.trans hchanges.admits_iff.symm⟩

/-- The old segments go, and then the range does not have them any more. -/
theorem achieves_retire (h : start.WellFormed) (hseparate : config.Separate)
    (hstem : log.segmentStem = config.segmentStem) (hfile : log.rangeFile = config.rangeFile)
    (hreaches : ∀ id ∈ old.ids, start.Reaches (config.segmentFile id)) (range : SegmentRange) :
    Achieves (do old.ids.forM log.removeSegment; range.store log.rangeFile) start (fun _ => True)
      (fun _ => Retired config old start) (fun _ _ => True) := by
  refine Achieves.bind (gone_removeAll h hseparate hstem hreaches) ?_
  rintro _ middle - ⟨hchanges, hgone⟩
  have hretired : Retired config old start middle := by
    refine ⟨fun hid => hgone _ hid, fun hid => Config.fileBytes_of_changes hchanges ?_,
      hchanges.admits_iff.symm⟩
    rintro ⟨other, hother, hplace⟩
    obtain rfl := ValueFile.segment.inj (hseparate.injective hplace)
    exact hid hother
  exact hretired.store hchanges.wellFormed hseparate hfile range

/-- Recovery copies one record of each key, counts what it goes through, and removes what it copied
from. -/
theorem Ready.recover_compacted (h : Ready config start old log disk) (hseparate : config.Separate)
    (hcapacity : config.capacity ≠ 0) :
    Achieves (log.recover old) disk (fun _ => True)
      (fun state last => Compacted config start old state.1 state.2 last) (fun _ _ => True) := by
  have htracks := h.tracks
  have hreaches : ∀ id ∈ old.ids, disk.Reaches (config.segmentFile id) := fun id hid =>
    htracks.reaches_of_lt (SegmentRange.mem_ids_iff.mp hid).2
  unfold ValueLog.recover
  refine Achieves.bind ((achieves_survivors htracks.stem_eq htracks.capacity_eq hreaches
    trivial).imp_failed fun _ _ _ _ => trivial) ?_
  rintro best _ - ⟨rfl, hadmits, hbest, hfits⟩
  have hlive : config.live start old = (chosen log.index.applied (config.scanned disk old)
      (config.scanned disk old)).map Prod.snd := by
    rw [Config.live, h.indexed_applied, h.scanned_eq]
  refine Achieves.bind (achieves_relocate_placed (htracks.relocated h.staged_eq) hseparate hcapacity
    h.spot_eq hfits hbest) ?_
  rintro ⟨moved, report⟩ filled - hplaced
  -- there is no choice in where the copies are, so what was placed is what the segments have
  obtain ⟨copies, hmoved⟩ := hplaced.exists_copies
  have hcopies := hplaced.copies_eq (Config.ascending_scanned config disk old)
    (List.append_nil _).symm hmoved
  dsimp only at hmoved ⊢
  refine Achieves.bind (achieves_lift ((spares_sync hmoved.tracks.wellFormed
    { moved with index := moved.index.retain best.contains }).mono (fun _ _ => trivial)
      fun _ _ _ hdone => hdone)) ?_
  rintro _ synced - ⟨rfl, hspares, -⟩
  have hsynced : disk.Changes (config.sessionPlaces old.next) synced :=
    hmoved.changes.trans (hspares.toChanges.mono (Set.empty_subset _))
  -- from here on only old segments change
  rw [← bind_assoc]
  refine Achieves.bind (achieves_retire hspares.wellFormed hseparate hmoved.tracks.stem_eq
    hmoved.tracks.rangeFile_eq (fun id hid => hsynced.reaches_iff.mpr (hreaches id hid)) _) ?_
  rintro _ last - hretired
  refine achieves_pure trivial ⟨hplaced.scanned_eq, ?_, ?_, ?_, ?_, ?_, fun id hid hid' =>
    hretired.gone (SegmentRange.mem_ids_iff.mpr ⟨hid, hid'⟩), fun id hid hid' => ?_⟩
  · rw [hlive, List.length_map]
    exact hplaced.relocated_eq
  · rw [← h.scanned_eq]
    exact hplaced.total_eq
  · rw [← h.tornCount_eq]
    exact hplaced.torn_eq
  · -- the copies are where they were placed
    have hcopied : config.scanned last ⟨old.next, moved.range.next⟩ = copies := by
      rw [← hmoved.tracks.scanned_eq]
      refine Config.scanned_congr fun id hid _ => ?_
      have hfresh : id ∉ old.ids := fun hold =>
        UInt64.not_lt.mpr hid (SegmentRange.mem_ids_iff.mp hold).2
      rw [hretired.fileBytes_eq hfresh, Config.fileBytes_of_changes hspares.toChanges
        (Set.notMem_empty _)]
    exact hcopied.trans (hcopies.trans (by rw [hlive]))
  · rw [hlive]
    exact hplaced.spot_eq
  · have hmem := SegmentRange.mem_ids_iff.mpr ⟨hid, hid'⟩
    refine Disk.Admits.nodeAt_of_none ?_ (hretired.gone hmem)
    exact hretired.admits_iff.mp (hsynced.admits_iff.mpr (hadmits id hmem))

/-- An opening that goes well has reclaimed all that is not live. -/
theorem openAt_compacted (h : start.WellFormed) (hseparate : config.Separate) :
    Achieves (openAt config) start (fun _ => True)
      (fun state disk => ∃ old, config.range? start = some old ∧
        Compacted config start old state.1 state.2 disk) (fun _ _ => True) :=
  achieves_openAt_of_recover h hseparate fun old _ _ hcapacity hrange hready =>
    (hready.recover_compacted hseparate hcapacity).imp_done fun _ _ _ hdone => ⟨old, hrange, hdone⟩

/-! ## What the fresh segments hold -/

/-- The segments of a log in good order hold the records that a scan finds in them. -/
theorem Orderly.holds {origin id : UInt64} (h : log.Orderly config disk origin)
    (hreaches : disk.Reaches (config.segmentFile log.active.id)) (hfirst : origin ≤ id)
    (hlast : id ≤ log.active.id) :
    config.Holds disk id ((config.scannedSegment disk id).map Prod.snd) ∧
      config.fileBytes disk (.segment id) =
        some (Record.encodeAll ((config.scannedSegment disk id).map Prod.snd)) := by
  obtain ⟨bytes, hbytes, hshaped⟩ := h.shaped id hfirst hlast
  obtain ⟨records, hholds, hfound⟩ := holds_of_shaped (hreaches.segment_le hlast) hbytes hshaped
  have hrecords : (config.scannedSegment disk id).map Prod.snd = records := by
    rw [Config.scannedSegment, hbytes, Option.getD_some, hfound, List.map_map]
    exact Record.placed_records 0 records
  obtain ⟨⟨others, rfl, hsmall, hstarts⟩, -⟩ := hshaped
  -- a segment has one list of records
  obtain rfl : others = records := by
    rw [Scan.recordsIn_encodeAll hsmall hstarts] at hfound
    have hsame := congrArg (List.map Prod.snd) hfound
    rwa [Record.placed_records, Record.placed_records] at hsame
  rw [hrecords]
  exact ⟨hholds, hbytes⟩

section Serves

variable {origin : UInt64} {copies : Found} {key value : Bytes}

/-- Where each key has one record, its value is the one in that record. -/
theorem Serves.get_eq_some_iff (h : log.Serves config disk origin base copies [])
    (hdistinct : copies.Pairwise fun a b => a.2.key ≠ b.2.key) :
    log.get disk key = .ok (some value) ↔ ⟨key, value⟩ ∈ copies.map Prod.snd := by
  have hbindings : copies.bindings.Pairwise fun a b => a.1 ≠ b.1 := List.pairwise_map.mpr hdistinct
  rw [h.get_eq, Except.ok.injEq, latest_eq_some_iff_mem hbindings, Found.bindings, List.mem_map,
    List.mem_map]
  constructor
  · rintro ⟨entry, hentry, hsame⟩
    obtain ⟨rfl, rfl⟩ := Prod.mk.inj hsame
    exact ⟨entry, hentry, rfl⟩
  · rintro ⟨entry, hentry, hsame⟩
    exact ⟨entry, hentry, by rw [hsame]⟩

/-- A key is visible if it has a record. -/
theorem Serves.isSome_find?_iff (h : log.Serves config disk origin base copies []) :
    (log.find? key).isSome ↔ key ∈ (copies.map Prod.snd).map Record.key := by
  rw [find?, Index.find?, h.applied_eq, getElem?_ofEntries, Found.latest_lines, Option.isSome_map,
    Option.isSome_iff_ne_none, Ne, Found.last?_eq_none_iff, List.map_map, List.mem_map]
  simp

/-- Where each key has one record, there are as many visible keys as records. -/
theorem Serves.size_applied (h : log.Serves config disk origin base copies [])
    (hdistinct : copies.Pairwise fun a b => a.2.key ≠ b.2.key) :
    log.index.applied.size = copies.length := by
  have hlines : copies.lines.Pairwise fun a b => a.1 ≠ b.1 := List.pairwise_map.mpr hdistinct
  rw [h.applied_eq, size_ofEntries hlines, Found.lines, List.length_map]

end Serves

/-- An open log, and what was reclaimed when it was opened. -/
structure Reclaimed (config : Config) (start : Disk) (old : SegmentRange) (log : ValueLog)
    (report : Recovery) (disk : Disk) : Prop
    extends Compacted config start old log report disk where
  exists_serves : ∃ base, log.Serves config disk old.next base (config.scanned disk log.range) []
  orderly : log.Orderly config disk old.next
  isCopies : Copies (config.indexed start) (config.scanned start old) (config.scanned disk log.range)
  size_eq : log.index.applied.size + report.dangling = (config.indexed start).size

/-- An opening that goes well has reclaimed all that is not live. -/
theorem reclaimed_of_openAt {drive last : Drive} (hwell : drive.disk.WellFormed)
    (hseparate : config.Separate)
    (hrun : (openAt config).run.run drive = (.ok (log, report), last)) :
    ∃ old, config.range? drive.disk = some old ∧
      Reclaimed config drive.disk old log report last.disk := by
  have hcompacted := (openAt_compacted hwell hseparate).after_run
  have hserves := (achieves_openAt_anywhere hwell hseparate).after_run
  have htallied := (openAt_tallied hwell hseparate).after_run
  have hsettled := (settled_openAt_anywhere hwell hseparate).after_run
  rw [hrun] at hcompacted hserves htallied hsettled
  obtain ⟨old, hrange, hcompacted⟩ := hcompacted
  obtain ⟨-, old', base, copies, hrange', hserves, -⟩ := hserves
  obtain ⟨-, old'', hrange'', htallied⟩ := htallied
  -- the range is the one in the file, in all of them
  obtain rfl : old = old' := Option.some.inj (hrange.symm.trans hrange')
  obtain rfl : old = old'' := Option.some.inj (hrange.symm.trans hrange'')
  have hscanned : config.scanned last.disk log.range = copies := by
    rw [← List.append_nil copies, ← hserves.scanned_eq, ← hserves.first_eq]
  refine ⟨old, hrange, { hcompacted with
    exists_serves := ⟨base, hscanned ▸ hserves⟩
    orderly := hserves.first_eq ▸ hsettled.2.toOrderly
    isCopies := ?_
    size_eq := htallied.size_eq }⟩
  refine copies_of_chosen (Config.ascending_scanned _ _ _) (List.append_nil _).symm ?_
  rw [hcompacted.laid_eq, Spot.laid_records, Config.live]

namespace Reclaimed

variable (h : Reclaimed config start old log report disk)

include h

/-- The fresh segments have a record for each one that was relocated. -/
theorem length_scanned : (config.scanned disk log.range).length = report.relocated := by
  rw [h.relocated_eq, ← Spot.laid_records config.capacity.toNat (Spot.start old.next)
    (config.live start old), List.length_map, ← h.laid_eq]

/-- Each key that is visible was relocated. -/
theorem relocated_eq_size : report.relocated = log.index.applied.size := by
  obtain ⟨_, hserves⟩ := h.exists_serves
  rw [hserves.size_applied h.isCopies.distinct, h.length_scanned]

/-- A fresh segment holds the records that a scan finds in it, and nothing else. -/
theorem holds {id : UInt64} (hid : id ∈ log.range.ids) :
    config.Holds disk id ((config.scannedSegment disk id).map Prod.snd) ∧
      config.fileBytes disk (.segment id) =
        some (Record.encodeAll ((config.scannedSegment disk id).map Prod.snd)) := by
  obtain ⟨_, hserves⟩ := h.exists_serves
  obtain ⟨hfirst, hnext⟩ := SegmentRange.mem_ids_iff.mp hid
  exact h.orderly.holds hserves.reaches (hserves.first_eq ▸ hfirst) (hserves.le_active hnext)

theorem bytesIn_eq : config.bytesIn disk log.range =
    (((config.scanned disk log.range).map Prod.snd).map Record.length).sum := by
  have hbytes : (log.range.ids.map fun id =>
      ((config.fileBytes disk (.segment id)).getD []).length) = log.range.ids.map fun id =>
        (Record.encodeAll ((config.scannedSegment disk id).map Prod.snd)).length :=
    List.map_congr_left fun id hid => by rw [(h.holds hid).2, Option.getD_some]
  rw [Config.bytesIn, hbytes, ← Record.length_encodeAll, Config.scanned, List.map_flatMap,
    Record.encodeAll, List.flatMap_assoc, List.length_flatMap]
  rfl

/-- Behind the first of the old segments there are no others on the disk than the fresh ones. -/
theorem mem_segmentsOn_iff {id : UInt64} (hvacant : config.Vacant disk log.range.next)
    (hid : old.first ≤ id) :
    id ∈ config.segmentsOn disk ↔ log.range.first ≤ id ∧ id < log.range.next := by
  obtain ⟨_, hserves⟩ := h.exists_serves
  constructor
  · intro hpresent
    have hfresh : old.next ≤ id := UInt64.not_lt.mp fun hlt => hpresent (h.gone id hid hlt)
    exact ⟨hserves.first_eq ▸ hfresh, UInt64.not_le.mp fun hle => hpresent (hvacant id hle)⟩
  · intro hbounds
    exact Option.ne_none_iff_exists'.mpr ⟨_, (h.holds (SegmentRange.mem_ids_iff.mpr hbounds)).2⟩

end Reclaimed

/-- An opening reclaims everything that is not live, and its counts add up. -/
theorem reclaims_of_openAt {base : Config} {directory : Path} {drive last : Drive} {log : ValueLog}
    {report : Recovery} (hwell : drive.disk.WellFormed)
    (hrun : (openAt (base.withDirectory directory)).run.run drive = (.ok (log, report), last)) :
    let config := base.withDirectory directory
    ∃ old, config.range? drive.disk = some old ∧
      report.scanned = old.next.toNat - old.first.toNat ∧
      report.relocated + report.dropped = (config.scanned drive.disk old).length ∧
      report.relocated = log.index.applied.size ∧
      report.relocated + report.dangling = (config.indexed drive.disk).size ∧
      (∀ id, old.first ≤ id → id < old.next →
        last.disk.nodeAt (config.segmentFile id) = .error .notFound) ∧
      config.range? last.disk = some log.range ∧ log.range.first = old.next ∧
      ∃ records : UInt64 → List Record,
        (∀ id, log.range.first ≤ id → id < log.range.next →
          config.Holds last.disk id (records id)) ∧
        ((log.range.ids.flatMap records).map Record.key).Nodup ∧
        (∀ key value, log.get last.disk key = .ok (some value) ↔
          ⟨key, value⟩ ∈ log.range.ids.flatMap records) ∧
        (∀ key, (log.find? key).isSome ↔ key ∈ (log.range.ids.flatMap records).map Record.key) ∧
        config.bytesIn last.disk log.range =
          ((log.range.ids.flatMap records).map Record.length).sum := by
  intro config
  obtain ⟨old, hrange, h⟩ := reclaimed_of_openAt hwell (Config.separate_withDirectory base directory) hrun
  obtain ⟨lines, hserves⟩ := h.exists_serves
  have hdistinct := h.isCopies.distinct
  -- the records of the fresh segments, one segment behind the other, are those of a scan
  have hall : (log.range.ids.flatMap fun id => (config.scannedSegment last.disk id).map Prod.snd) =
      (config.scanned last.disk log.range).map Prod.snd := by
    rw [Config.scanned, List.map_flatMap]
  refine ⟨old, hrange, ?_, h.total_eq, h.relocated_eq_size, ?_, h.removed, hserves.range?_eq,
    hserves.first_eq, fun id => (config.scannedSegment last.disk id).map Prod.snd,
    fun id hid hid' => (h.holds (SegmentRange.mem_ids_iff.mpr ⟨hid, hid'⟩)).1, ?_, ?_, ?_, ?_⟩
  · rw [h.scanned_eq, SegmentRange.ids, List.length_map, List.length_range', SegmentRange.count]
  · rw [h.relocated_eq_size]
    exact h.size_eq
  · rw [hall, List.Nodup, List.map_map, List.pairwise_map]
    exact hdistinct
  · intro key value
    rw [hall]
    exact hserves.get_eq_some_iff hdistinct
  · intro key
    rw [hall]
    exact hserves.isSome_find?_iff
  · rw [hall]
    exact h.bytesIn_eq

/-- Of the two whole records of the key, one is copied. -/
theorem reclaims_of_openAt_damaged : ∃ log report last,
    (openAt damagedConfig).run.run (ofDisk damagedDisk) = (.ok (log, report), last) ∧
      damagedDisk.WellFormed ∧ report.scanned = 1 ∧ report.relocated + report.dropped = 2 ∧
      report.relocated = log.index.applied.size ∧ report.relocated + report.dangling = 1 ∧
      last.disk.nodeAt (damagedConfig.segmentFile 0) = .error .notFound ∧
      damagedConfig.range? last.disk = some log.range ∧ log.range.first = 1 := by
  have hwell : damagedDisk.WellFormed := Disk.wellFormed_applyAll_empty _
  have hopens : ∃ opened last,
      (openAt damagedConfig).run.run (ofDisk damagedDisk) = (.ok opened, last) := by
    decide +kernel
  obtain ⟨⟨log, report⟩, last, hrun⟩ := hopens
  obtain ⟨old, hrange, hscanned, htotal, hvisible, hindexed, hremoved, hsaid, hfirst, -⟩ :=
    @reclaims_of_openAt _ _ (ofDisk damagedDisk) last log report hwell hrun
  obtain rfl : old = ⟨0, 1⟩ := by
    have hsame : damagedConfig.range? damagedDisk = some ⟨0, 1⟩ := by decide +kernel
    exact Option.some.inj (hrange.symm.trans hsame)
  have hrecords : (damagedConfig.scanned damagedDisk ⟨0, 1⟩).length = 2 := by decide +kernel
  have hkeys : (damagedConfig.indexed damagedDisk).size = 1 := by decide +kernel
  exact ⟨log, report, last, hrun, hwell, hscanned, htotal.trans hrecords, hvisible,
    hindexed.trans hkeys, hremoved 0 (by decide) (by decide), hsaid, hfirst⟩

end ValueLog

end BarrierStore
