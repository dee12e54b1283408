import BarrierStore.Proofs.ValueLog.Opening
import BarrierStore.Proofs.ValueLog.Segments

/-!
# The order of an opened log

Opening writes fresh segments only, and each of them in good order. When it has come to its end, all
that it wrote has reached the medium; and until then the range never goes back.

The module introduces:

* `ValueLog.InOrder` — an open log whose segments are in good order, and whose next segment is not below a
  given one;
* `ValueLog.Settled` — a log in good order of which everything has reached the medium.

Main statements: `InOrder.recover`, `ValueLog.guards_openAt`, and `ValueLog.settled_openAt_anywhere`.
-/

namespace BarrierStore

open Drive

namespace ValueLog

variable {config : Config} {log : ValueLog} {start disk : Disk} {origin least : UInt64}
  {base : List (Bytes × UInt64)}

/-- An open log whose segments are in good order, and whose next segment is not below `least`. -/
structure InOrder (config : Config) (least origin : UInt64) (base : List (Bytes × UInt64))
    (log : ValueLog) (disk : Disk) : Prop where
  exists_tracks : ∃ found, log.Tracks config disk origin base found
  orderly : log.Orderly config disk origin
  least_le : least ≤ log.range.next

/-- A log in good order, all of which has reached the medium. -/
structure Settled (config : Config) (log : ValueLog) (disk : Disk) (origin : UInt64) : Prop
    extends log.Orderly config disk origin where
  wellFormed : disk.WellFormed
  firm_active : disk.Firm (config.place (.segment log.active.id))
  firm_index : disk.Firm (config.place .index)

/-- Files that are spared leave a settled log settled. -/
theorem Settled.of_spares (h : log.Settled config start origin) (horigin : origin ≤ log.active.id)
    {places : Set Location} (hspares : start.Spares places disk)
    (hindex : config.place .index ∉ places)
    (hsegment : ∀ id, origin ≤ id → config.place (.segment id) ∉ places) :
    log.Settled config disk origin where
  toOrderly := h.toOrderly.of_spares hspares hsegment
  wellFormed := hspares.wellFormed
  firm_active := hspares.firm (hsegment _ horigin) h.firm_active
  firm_index := hspares.firm hindex h.firm_index

/-- The range of a log makes no difference to its segments. -/
theorem Settled.congr (h : log.Settled config start origin) {log' : ValueLog}
    (hsame : log'.active = log.active) : log'.Settled config start origin :=
  ⟨h.toOrderly.congr hsame, h.wellFormed, by rw [hsame]; exact h.firm_active, h.firm_index⟩

/-! ## Relocation -/

/-- A record is stored in good order. -/
theorem InOrder.store (h : InOrder config least origin base log start) (hseparate : config.Separate)
    (hcapacity : config.capacity ≠ 0) {record : Record} (hsmall : record.Small) :
    Achieves (log.store record) start (config.Guards least start)
      (InOrder config least origin base) (fun _ _ => True) := by
  obtain ⟨found, htracks⟩ := h.exists_tracks
  have hmade : Achieves (log.makeRoom record.length) start (fun _ => True) _ _ :=
    htracks.makeRoom hseparate hcapacity record.length_pos fun _ _ => trivial
  refine Achieves.bind_trans (config.Guards least) Config.Guards.trans
    (((h.orderly.makeRoom htracks hseparate h.least_le record.length).and hmade).mono
      (fun _ hboth => hboth.1) (fun _ _ _ hboth => hboth) fun _ _ _ _ => trivial) ?_
  intro sealed disk hboth
  obtain ⟨⟨horderly, hroom, -⟩, -, -, hbelow, hnext, -, -, htracks⟩ := hboth
  have happended : Achieves (sealed.append record) disk (fun _ => True) _ _ :=
    htracks.append hseparate hsmall hbelow fun _ _ _ _ _ _ _ => trivial
  refine ((horderly.append htracks hseparate hsmall hbelow hroom).and happended).mono
    (fun _ hboth => hboth.1) ?_ fun _ _ _ _ => trivial
  intro log' last _ hboth
  obtain ⟨⟨horderly, -⟩, address, hrange, -, -, -, -, htracks⟩ := hboth
  exact ⟨⟨_, htracks⟩, horderly, by rw [hrange]; exact UInt64.le_trans h.least_le hnext⟩

/-- A record is copied in good order, or passed over. -/
theorem InOrder.relocateRecord {state : ValueLog × Recovery}
    (h : InOrder config least origin base state.1 start) (hseparate : config.Separate)
    (hcapacity : config.capacity ≠ 0) (best : AddressMap) (id : UInt64) {found : Nat × Record}
    (hsmall : found.2.Small) :
    Achieves (ValueLog.relocateRecord best id state found) start (config.Guards least start)
      (fun state => InOrder config least origin base state.1) (fun _ _ => True) := by
  obtain ⟨log, report⟩ := state
  unfold ValueLog.relocateRecord
  refine Achieves.bind (achieves_outcome (.refl _ _ _)
    (fun address (_ : log.addressOf id found.1 = .ok address) => h) fun _ _ => trivial) ?_
  intro address disk hdisk horder
  split
  · refine Achieves.bind ((horder.store hseparate hcapacity hsmall).mono
      (fun last hlast => hdisk.trans hlast) (fun _ _ _ hstored => hstored) fun _ _ _ hfault => hfault) ?_
    exact fun _ _ hlast hstored => achieves_pure hlast hstored
  · exact achieves_pure hdisk horder

/-- The records of an old segment are gone through in good order. -/
theorem InOrder.relocateSegment {state : ValueLog × Recovery}
    (h : InOrder config least origin base state.1 start) (hseparate : config.Separate)
    (hcapacity : config.capacity ≠ 0) (best : AddressMap) {id : UInt64} (hold : id < origin) :
    Achieves (ValueLog.relocateSegment best state id) start (config.Guards least start)
      (fun state => InOrder config least origin base state.1) (fun _ _ => True) := by
  obtain ⟨found, htracks⟩ := h.exists_tracks
  refine achieves_relocateSegment (fun _ => InOrder config least origin base) htracks.stem_eq
    htracks.capacity_eq (htracks.reaches_of_lt hold) (.refl _ _ _) (fun _ _ => trivial) h ?_
  intro seen next tail _ hsmall log report disk hdisk horder
  exact (horder.relocateRecord hseparate hcapacity best id hsmall).mono
    (fun last hlast => hdisk.trans hlast) (fun _ _ _ hdone => hdone) fun _ _ _ hfault => hfault

/-- The copies of the old records are in good order. -/
theorem InOrder.relocate {old : SegmentRange} (h : InOrder config least old.next base log start)
    (hseparate : config.Separate) (hcapacity : config.capacity ≠ 0) (best : AddressMap) :
    Achieves (log.relocate best old.ids) start (config.Guards least start)
      (fun state => InOrder config least old.next base state.1) (fun _ _ => True) := by
  refine achieves_foldlM (fun _ (state : ValueLog × Recovery) =>
    InOrder config least old.next base state.1) (.refl _ _ _) h ?_
  intro front id rest hids state disk hdisk horder
  have hold : id < old.next := (SegmentRange.mem_ids_iff.mp (show id ∈ old.ids by simp [hids])).2
  exact (horder.relocateSegment hseparate hcapacity best hold).mono
    (fun last hlast => hdisk.trans hlast) (fun _ _ _ hdone => hdone) fun _ _ _ hfault => hfault

/-! ## Recovery -/

/-- A barrier settles a log in good order. -/
theorem InOrder.sync (h : InOrder config least origin base log start) :
    Meets log.sync start (config.Guards least start) fun log' disk =>
      log'.Settled config disk origin ∧ InOrder config least origin base log' disk := by
  obtain ⟨found, htracks⟩ := h.exists_tracks
  obtain ⟨bytes, hleaf, -, -⟩ := htracks.active_leaf
  refine (spares_sync htracks.wellFormed log).mono (fun _ => Config.guards_of_spares_empty) ?_
  intro log' disk _ hsync
  obtain ⟨rfl, hspares, hfirm⟩ := hsync
  have horderly := (h.orderly.of_spares hspares fun _ _ => Set.notMem_empty _)
  have htracks' := htracks.of_changes hspares.toChanges (Set.notMem_empty _) (Set.notMem_empty _)
    fun _ _ => Set.notMem_empty _
  refine ⟨⟨horderly.congr rfl, hspares.wellFormed, ?_, ?_⟩, ⟨found, { htracks' with }⟩,
    horderly.congr rfl, h.least_le⟩
  · exact hfirm _ _ (Disk.leaf_eq_some_iff.mp hleaf).1 (.inl rfl)
  · exact hfirm _ _ (Disk.leaf_eq_some_iff.mp htracks.index_leaf).1 (.inr rfl)

/-- An old segment goes, and the others stay as they are. -/
theorem Settled.removeSegment (h : log.Settled config start origin) (horigin : origin ≤ log.active.id)
    (hseparate : config.Separate) (hstem : log.segmentStem = config.segmentStem) {id : UInt64}
    (hold : id < origin) :
    Achieves (log.removeSegment id) start (config.Guards least start)
      (fun _ disk => log.Settled config disk origin) (fun _ _ => True) := by
  have hother : ∀ file, file ≠ .segment id →
      config.place file ∉ ({config.place (.segment id)} : Set Location) := fun file hfile =>
    hseparate.place_ne hfile
  have hguards (disk : Disk) (hspares : start.Spares {config.place (.segment id)} disk)
      (hnone : config.fileBytes start (.segment id) = none →
        config.fileBytes disk (.segment id) = none) : config.Guards least start disk :=
    Config.guards_of_spares_file hseparate hspares (by simp) (by simp) fun _ _ _ => hnone
  have hkept (disk : Disk) (hspares : start.Spares {config.place (.segment id)} disk) :
      log.Settled config disk origin :=
    h.of_spares horigin hspares (hother _ (by simp)) fun other hid =>
      hother _ (ValueFile.segment_ne (UInt64.lt_of_lt_of_le hold hid)).symm
  unfold ValueLog.removeSegment
  rw [segmentFile_eq hstem]
  refine Achieves.bind (m := fun _ disk => log.Settled config disk origin)
    (Achieves.attempt ((spares_remove h.wellFormed (config.segmentFile id) hguards).imp
      (fun _ disk _ hspares => hkept disk hspares) ?_)) ?_
  · intro _ _ _ hsame
    exact hsame ▸ h
  -- a segment that was missing already is as good as a removed one
  intro outcome disk hdisk hsettled
  split
  · exact achieves_pure hdisk hsettled
  · exact achieves_pure hdisk hsettled
  · exact achieves_throw hdisk trivial

/-- What recovery writes is in good order, and when it has come to its end, all of it has reached the
medium. -/
theorem InOrder.recover {old : SegmentRange} (h : InOrder config least old.next base log start)
    (hseparate : config.Separate) (hcapacity : config.capacity ≠ 0) :
    Achieves (log.recover old) start (config.Guards least start)
      (fun state disk => state.1.Settled config disk state.1.range.first) (fun _ _ => True) := by
  obtain ⟨found, htracks⟩ := h.exists_tracks
  have hreaches : ∀ id ∈ old.ids, start.Reaches (config.segmentFile id) := fun id hid =>
    htracks.reaches_of_lt (SegmentRange.mem_ids_iff.mp hid).2
  unfold ValueLog.recover
  refine Achieves.bind_trans (config.Guards least) Config.Guards.trans
    ((achieves_survivors htracks.stem_eq htracks.capacity_eq hreaches (.refl _ _ _)).imp_failed
      fun _ _ _ _ => trivial) ?_
  intro best _ hsurvivors
  obtain ⟨rfl, -, -, -⟩ := hsurvivors
  refine Achieves.bind_trans (config.Guards least) Config.Guards.trans
    (h.relocate hseparate hcapacity best) ?_
  intro state disk horder
  obtain ⟨moved, report⟩ := state
  have hretained : InOrder config least old.next base
      { moved with index := moved.index.retain best.contains } disk := by
    obtain ⟨copies, htracks⟩ := horder.exists_tracks
    exact ⟨⟨copies, { htracks with }⟩, horder.orderly.congr rfl, horder.least_le⟩
  refine Achieves.bind_trans (config.Guards least) Config.Guards.trans
    (achieves_lift hretained.sync) ?_
  intro synced last hsynced
  obtain ⟨hsettled, ⟨copies, htracks⟩, -, hleast⟩ := hsynced
  -- the copies have reached the medium, so the old segments may go
  refine Achieves.bind_trans (config.Guards least) Config.Guards.trans
    (achieves_forM (fun _ disk => synced.Settled config disk old.next) (.refl _ _ _) hsettled ?_) ?_
  · intro front id rest hids between hbetween hkept
    have hold : id < old.next := (SegmentRange.mem_ids_iff.mp (show id ∈ old.ids by simp [hids])).2
    exact (hkept.removeSegment htracks.origin_le hseparate htracks.stem_eq hold).mono
      (fun after hafter => hbetween.trans hafter) (fun _ _ _ hdone => hdone)
      fun _ _ _ hfault => hfault
  -- the range may forget the old segments now, and its end stays where it was
  intro _ cleared hcleared
  rw [htracks.rangeFile_eq]
  have hstored : Achieves (SegmentRange.store config.rangeFile ⟨old.next, synced.range.next⟩) cleared
      (config.Guards least cleared) _ _ :=
    guards_storeRange hcleared.wellFormed hseparate htracks.origin_le_next hleast
  refine Achieves.bind_trans (config.Guards least) Config.Guards.trans
    (hstored.imp_failed fun _ _ _ _ => trivial) ?_
  rintro _ done ⟨hspares, -⟩
  have hsettled : synced.Settled config done old.next := by
    refine hcleared.of_spares htracks.origin_le hspares ?_ fun id _ => ?_
    · simp [(hseparate.besideRange .index).symm, hseparate.place_ne]
    · simp [(hseparate.besideRange (.segment id)).symm, hseparate.place_ne]
  exact achieves_pure (.refl _ _ _) (hsettled.congr rfl)

/-! ## Opening -/

variable {index : Index}

/-- The fresh segment is in good order, and so is what comes behind it. The range file has reached the
medium. -/
theorem guards_openFresh {old : SegmentRange} (h : start.WellFormed) (hseparate : config.Separate)
    (hcapacity : config.capacity ≠ 0) (hpath : index.path = config.indexLog)
    (hleaf : start.leaf (config.place .index) = some (index.log, IndexLog.compact index.applied))
    (horder : old.first ≤ old.next) (hleast : least ≤ old.next) :
    Achieves (openFresh config index old) start (config.Guards least start)
      (fun state disk => state.1.Settled config disk state.1.range.first ∧
        (start.Firm (config.place .capacity) → config.Recorded least disk)) (fun _ _ => True) := by
  unfold openFresh
  split
  case h_2 => exact achieves_throw (.refl _ _ _) trivial
  rename_i range hgrow
  obtain ⟨hfirst, hnext⟩ := SegmentRange.of_grow? hgrow
  have hle : old.next ≤ range.next := SegmentRange.le_next hnext
  have horder' : range.first ≤ range.next := hfirst ▸ UInt64.le_trans horder hle
  have hgrown : Achieves _ start (config.Guards least start) _ _ :=
    guards_grow h hseparate horder' hleast hle
  have htaken : Achieves (do range.store config.rangeFile; create (config.segmentFile old.next)) start
      (fun _ => True) _ _ :=
    achieves_grow h hseparate horder' old.next fun _ _ _ => trivial
  rw [← bind_assoc]
  refine Achieves.bind_trans (config.Guards least) Config.Guards.trans
    ((hgrown.and htaken).mono (fun _ hboth => hboth.1) (fun _ _ _ hboth => hboth)
      fun _ _ _ _ => trivial) ?_
  intro file grown hboth
  obtain ⟨⟨hspares, hfirm, -⟩, -, -, hsegment, hchanges, hbytes, hfresh⟩ := hboth
  have htracks := tracks_of_fresh hseparate hpath hleaf horder hfirst hnext hchanges hsegment hbytes
    hfresh
  -- there is one segment, an empty one, and none in front of it
  have hinOrder : InOrder config least old.next index.applied.toList
      ⟨config.capacity, config.segmentStem, config.rangeFile, index, range, ⟨old.next, file, 0⟩⟩
      grown := by
    refine ⟨⟨[], htracks⟩, ⟨fun id hid hid' => ?_, fun id hid hid' => ?_⟩, UInt64.le_trans hleast hle⟩
    · obtain rfl : id = old.next := UInt64.le_antisymm hid' hid
      exact ⟨[], Disk.bytesAt_of_leaf hfresh, Scan.shaped_nil _⟩
    · exact absurd (UInt64.lt_of_lt_of_le hid' hid) (UInt64.lt_irrefl _)
  refine (hinOrder.recover hseparate hcapacity).imp_done fun _ last hguards hsettled =>
    ⟨hsettled, fun hstart => hguards.recorded ⟨hfirm, ?_, range, htracks.range?_eq,
      UInt64.le_trans hleast hle⟩⟩
  exact hspares.firm (hseparate.not_mem_growthPlaces (by simp) (by simp)) hstart

/-- The check of the capacity spares all other files, and takes nothing from the medium. -/
theorem guards_checkCapacity (h : start.WellFormed) (hseparate : config.Separate) :
    Achieves (checkCapacity config) start (config.Guards least start)
      (fun _ disk => start.Spares (capacityPlaces config) disk ∧
        (start.Firm (config.place .capacity) → disk.Firm (config.place .capacity)))
      (fun _ _ => True) := by
  unfold checkCapacity
  refine Achieves.bind ((Capacity.achieves_load? _ (.refl _ _ _)).imp_failed fun _ _ _ _ => trivial) ?_
  intro recorded _ _ hloaded
  obtain ⟨rfl, -⟩ := hloaded
  cases recorded with
  | some recorded =>
    dsimp only
    split
    · exact achieves_throw (.refl _ _ _) trivial
    · exact achieves_pure (.refl _ _ _) ⟨.refl h, fun hfirm => hfirm⟩
  | none =>
    refine (spares_replaceFile h (hseparate.besideCapacity .capacity) _ ?_).imp
      (fun _ _ _ hstored => ⟨hstored.1, fun _ => hstored.2⟩) fun _ _ _ _ => trivial
    -- at every moment the file of that name is on the medium if the one before it was
    intro disk hspares hfirm
    have hspares : start.Spares (capacityPlaces config) disk := hspares
    have hrange : config.place .range ∉ capacityPlaces config :=
      not_mem_capacityPlaces hseparate (by simp)
    refine ⟨fun hstart => ⟨hspares.firm hrange hstart.firm_range, hfirm hstart.firm_capacity, ?_⟩,
      fun id _ hnone => ?_⟩
    · rw [Config.range?_congr (Config.fileBytes_of_changes hspares.toChanges hrange)]
      exact hstart.exists_range
    · rw [Config.fileBytes_of_changes hspares.toChanges
        (not_mem_capacityPlaces hseparate (by simp)), hnone]

/-- To open a log over its index guards the segments that are there. -/
theorem guards_openFound (h : start.WellFormed) (hseparate : config.Separate)
    (hcapacity : config.capacity ≠ 0) (hpath : index.path = config.indexLog)
    (hleaf : start.leaf (config.place .index) = some (index.log, IndexLog.compact index.applied))
    (hleast : ∀ old, (start.Reaches config.rangeFile → config.range? start = some old) →
      least ≤ old.next) :
    Achieves (openFound config index) start (config.Guards least start)
      (fun state disk => state.1.Settled config disk state.1.range.first ∧
        (start.Firm (config.place .capacity) → config.Recorded least disk)) (fun _ _ => True) := by
  refine Achieves.bind_trans (config.Guards least) Config.Guards.trans
    ((SegmentRange.achieves_load _ (.refl _ _ _)).imp_failed fun _ _ _ _ => trivial) ?_
  intro old _ hloaded
  obtain ⟨rfl, horder, hrange⟩ := hloaded
  refine Achieves.bind_trans (config.Guards least) Config.Guards.trans
    (guards_checkCapacity h hseparate) ?_
  rintro _ checked ⟨hspares, hfirm⟩
  exact (guards_openFresh hspares.wellFormed hseparate hcapacity hpath
    ((hspares.leaf_eq (not_mem_capacityPlaces hseparate (by simp))).trans hleaf) horder
    (hleast old fun hreaches => (hrange hreaches).2)).imp_done fun _ _ _ hdone =>
      ⟨hdone.1, fun hstart => hdone.2 (hfirm hstart)⟩

/-- Opening the index spares the files of other names. -/
theorem guards_openIndex (h : start.WellFormed) (hseparate : config.Separate) :
    Achieves (Index.openAt config.indexLog) start (config.Guards least start)
      (fun _ => start.Spares {config.besideIndex.place, config.place .index}) (fun _ _ => True) := by
  -- neither of the two files of the index is guarded
  have hguards {start disk : Disk}
      (hspares : start.Spares {config.besideIndex.place, config.place .index} disk) :
      config.Guards least start disk :=
    Config.guards_of_spares hspares (not_mem_indexPlaces hseparate (by simp))
      (not_mem_indexPlaces hseparate (by simp)) fun _ _ hplace =>
        absurd hplace (not_mem_indexPlaces hseparate (by simp))
  refine Achieves.bind_trans (config.Guards least) Config.Guards.trans
    ((IndexLog.achieves_load _ (.refl _ _ _)).imp_failed fun _ _ _ _ => trivial) ?_
  intro map _ hloaded
  obtain ⟨rfl, -⟩ := hloaded
  refine Achieves.bind_trans (config.Guards least) Config.Guards.trans
    ((spares_replaceFile h (hseparate.besideIndex .index) _ fun disk hspares _ =>
      hguards hspares).imp_failed fun _ _ _ _ => trivial) ?_
  intro _ stored hstored
  have hopened {disk : Disk} (hspares : stored.Spares {config.place .index} disk) :
      stored.Spares {config.besideIndex.place, config.place .index} disk := hspares.mono (by simp)
  refine Achieves.bind_trans (config.Guards least) Config.Guards.trans
    ((spares_openForWriting hstored.1.wellFormed config.indexLog false fun disk hspares =>
      hguards (hopened hspares)).imp_failed fun _ _ _ _ => trivial) ?_
  exact fun id disk hspares => achieves_pure (.refl _ _ _) (hstored.1.trans (hopened hspares))

/-- A log that was opened is in good order, and everything in it has reached the medium, the range file
too; while it is opened, the range does not go back. -/
theorem guards_openAt (h : start.WellFormed) (hseparate : config.Separate)
    (hparent : start.HasParent config.segmentStem)
    (hleast : ∀ old, (start.Reaches config.rangeFile → config.range? start = some old) →
      least ≤ old.next) :
    Achieves (openAt config) start (config.Guards least start)
      (fun state disk => state.1.Settled config disk state.1.range.first ∧
        (start.Firm (config.place .capacity) → config.Recorded least disk)) (fun _ _ => True) := by
  have hindex : Achieves (Index.openAt config.indexLog) start (fun _ => True) _ _ :=
    achieves_openIndex h hseparate fun _ _ => trivial
  refine Achieves.bind_trans (config.Guards least) Config.Guards.trans
    (((guards_openIndex h hseparate).and hindex).mono (fun _ hboth => hboth.1)
      (fun _ _ _ hboth => hboth) fun _ _ _ _ => trivial) ?_
  intro index disk hboth
  obtain ⟨hspares, -, -, hkeeps, -, hpath, -, hleaf⟩ := hboth
  rw [openWith_eq]
  cases hvalid : config.validate with
  | error cause => exact achieves_throw (.refl _ _ _) trivial
  | ok =>
    have hfound : disk.HasParent config.segmentStem :=
      hparent.mono hspares.becomes.keepsDirectories
    refine Achieves.bind (achieves_makeParent _ hfound (.refl _ _ _)) ?_
    intro _ _ _ hsame
    obtain rfl := hsame
    -- the range that is loaded is the one that the file said in front of the opening
    have hleast : ∀ old, (disk.Reaches config.rangeFile → config.range? disk = some old) →
        least ≤ old.next := fun old hloaded => hleast old fun hreaches =>
      hkeeps.range?_eq.symm.trans (hloaded (hspares.reaches_iff.mpr hreaches))
    have hcapacity : start.Firm (config.place .capacity) → disk.Firm (config.place .capacity) :=
      hspares.firm (not_mem_indexPlaces hseparate (by simp))
    exact (guards_openFound hspares.wellFormed hseparate (capacity_ne_of_validate hvalid) hpath hleaf
      hleast).imp_done fun _ _ _ hdone => ⟨hdone.1, fun hstart => hdone.2 (hcapacity hstart)⟩

/-- Whatever directories are there, a log that was opened is in good order, and everything in it has
reached the medium. -/
theorem settled_openAt_anywhere (h : start.WellFormed) (hseparate : config.Separate) :
    Achieves (openAt config) start (fun _ => True)
      (fun state disk => config.capacity ≠ 0 ∧ state.1.Settled config disk state.1.range.first)
      (fun _ _ => True) := by
  refine achieves_openAt_of_openFound h hseparate fun index disk hprepared => ?_
  have hcapacity := capacity_ne_of_validate hprepared.valid
  have hfound : Achieves (openFound config index) disk (config.Guards 0 disk) _ _ :=
    guards_openFound hprepared.wellFormed hseparate hcapacity hprepared.path_eq hprepared.index_leaf
      fun _ _ => UInt64.zero_le
  exact hfound.mono (fun _ _ => trivial) (fun _ _ _ hdone => ⟨hcapacity, hdone.1⟩)
    fun _ _ _ _ => trivial

end ValueLog

end BarrierStore
