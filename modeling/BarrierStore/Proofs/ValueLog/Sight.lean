import BarrierStore.Proofs.ValueLog.Steps

/-!
# What is seen of an open value log

What a value log does depends on little: on the segments in use, on where the active one ends, and on the
bindings. A write changes these and the bytes of two files, in the same way wherever the files are; or it
fails for a file that cannot be made, and then changes none of it. The range file alone may differ behind a
failure: the id of a segment is taken there before the segment is made.

The module introduces:

* `Sight` — what a reader sees of an open log: its fields but for the identities of its files, and the bytes
  of the files other than the range file; `Sight.put?` and `Sight.sync`, what becomes of it;
* `ValueLog.sight` — the sight of a log on a disk;
* `ValueLog.Sealed`, `ValueLog.Refused` — the two ways in which sealing a segment ends;
* `ValueLog.Comes` — the ways in which a write ends.

Main statements: `Anchored.meets_put`, by which a write ends in one of these ways on whatever disk;
`Comes.put?_sight`, by which it then does to what is seen what `Sight.put?` does, and `Comes.eq_of_io`, by
which it does nothing where it fails for a file; `Anchored.meets_sync` for a barrier.
-/

namespace BarrierStore

open Drive

/-! ## What is seen -/

/-- What a reader sees of an open log and of its files, the range file apart. -/
@[ext]
structure Sight where
  capacity : UInt64
  /-- The segments in use, as the log has them. -/
  range : SegmentRange
  /-- The id of the active segment. -/
  active : UInt64
  /-- Where the next record goes in it. -/
  length : Nat
  applied : AddressMap
  staged : AddressMap
  /-- The bytes of the files; none for the range file. -/
  files : ValueFile → Option Bytes

namespace Sight

/-- Whether a record of that length goes to the next segment. -/
def isFull (sight : Sight) (length : Nat) : Bool :=
  0 < sight.length ∧ sight.capacity.toNat < sight.length + length

/-- The next segment is the active one, and its file is there, empty; if there is an id for it. -/
def rollOver? (sight : Sight) : Option Sight :=
  sight.range.grow?.map fun range =>
    { sight with
      range
      active := sight.range.next
      length := 0
      files := Function.update sight.files (.segment sight.range.next) (some []) }

/-- There is room for a record of that length. -/
def makeRoom? (sight : Sight) (length : Nat) : Option Sight :=
  if sight.isFull length then sight.rollOver? else some sight

/-- A record stands at the end of the active segment and its line at the end of the index log, and its
address is staged; if it has one. -/
def append? (sight : Sight) (record : Record) : Option Sight :=
  ((Position.mk sight.active sight.length).address? sight.capacity).map fun address =>
    { sight with
      length := sight.length + record.length
      staged := sight.staged.insert record.key address
      files := Function.update
        (Function.update sight.files .index
          ((sight.files .index).map (· ++ Line.encode record.key address)))
        (.segment sight.active) ((sight.files (.segment sight.active)).map (· ++ record.encode)) }

/-- A record was put, if there are an id and an address for it. -/
def put? (sight : Sight) (record : Record) : Option Sight :=
  (sight.makeRoom? record.length).bind (·.append? record)

/-- Everything staged is applied. -/
def sync (sight : Sight) : Sight :=
  { sight with applied := sight.applied ∪ sight.staged, staged := ∅ }

end Sight

namespace ValueLog

variable {config : Config} {log log' sealed : ValueLog} {start middle disk : Disk} {record : Record}
  {lines : List (Bytes × UInt64)} {fault : Fault}

/-- What is seen of a log on a disk. -/
def sight (config : Config) (log : ValueLog) (disk : Disk) : Sight where
  capacity := log.capacity
  range := log.range
  active := log.active.id
  length := log.active.length
  applied := log.index.applied
  staged := log.index.staged
  files file := if file = .range then none else config.fileBytes disk file

@[simp] theorem isFull_sight (config : Config) (log : ValueLog) (disk : Disk) (length : Nat) :
    (log.sight config disk).isFull length = log.isFull length := rfl

/-- But for the range file, all files are in sight. -/
theorem files_sight {file : ValueFile} (hfile : file ≠ .range) :
    (log.sight config disk).files file = config.fileBytes disk file :=
  if_neg hfile

theorem files_sight_eq_iff {log' : ValueLog} {disk' : Disk} :
    (log'.sight config disk').files = (log.sight config disk).files ↔
      ∀ file, file ≠ .range → config.fileBytes disk' file = config.fileBytes disk file := by
  rw [funext_iff]
  refine forall_congr' fun file => ?_
  by_cases hfile : file = .range
  · simp [sight, hfile]
  · rw [files_sight hfile, files_sight hfile, imp_iff_right hfile]

/-- What is seen of a log does not change with other files, the range file among them. -/
theorem sight_of_changes {places : Set Location} (hchanges : start.Changes places disk)
    (hfile : ∀ file, file ≠ .range → config.place file ∉ places) :
    log.sight config disk = log.sight config start := by
  have hfiles : (log.sight config disk).files = (log.sight config start).files :=
    files_sight_eq_iff.mpr fun file hne => Config.fileBytes_of_changes hchanges (hfile file hne)
  exact Sight.ext rfl rfl rfl rfl rfl rfl hfiles

/-! ## Sealing a segment -/

/-- The active segment is sealed, and the next one is there, empty. -/
structure Sealed (config : Config) (log : ValueLog) (start : Disk) (log' : ValueLog) (disk : Disk) :
    Prop where
  admits_besideRange : start.Admits config.besideRange
  admits : start.Admits (config.segmentFile log.range.next)
  exists_eq : ∃ range file, log.range.grow? = some range ∧
    log' = { log with range, active := ⟨log.range.next, file, 0⟩ } ∧
    disk.leaf (config.place (.segment log.range.next)) = some (file, [])
  changes : start.Changes (config.growthPlaces log.range.next) disk
  range_bytes : config.fileBytes disk .range = some (Utf8.encode log'.range.encode)

/-- No segment took the place of the active one. -/
inductive Refused (config : Config) (log : ValueLog) (start : Disk) : Fault → Disk → Prop
  /-- There is no id for it. -/
  | exhausted {disk : Disk} : log.range.grow? = none → start.Changes ∅ disk →
      Refused config log start .arithmetic disk
  /-- The range file could not be replaced. -/
  | unstored {cause : IoFault} {disk : Disk} :
      ¬ (start.Admits config.besideRange ∧ start.Admits config.rangeFile) →
      start.Changes {config.besideRange.place} disk → Refused config log start (.io cause) disk
  /-- The id is taken in the range file, and then the segment could not be made. -/
  | uncreated {cause : IoFault} {range : SegmentRange} {disk : Disk} :
      start.Admits config.besideRange → ¬ start.Admits (config.segmentFile log.range.next) →
      log.range.grow? = some range →
      start.Changes {config.besideRange.place, config.place .range} disk →
      config.fileBytes disk .range = some (Utf8.encode range.encode) →
      Refused config log start (.io cause) disk

/-- New contents of the range file, or what stands in their way. -/
theorem achieves_storeRange (h : start.WellFormed) (range : SegmentRange) :
    Achieves (range.store config.rangeFile) start (fun _ => True)
      (fun _ disk => start.Admits config.besideRange ∧
        start.Changes {config.besideRange.place, config.place .range} disk ∧
        config.fileBytes disk .range = some (Utf8.encode range.encode))
      (fun fault disk => (∃ cause, fault = .io cause) ∧
        ¬ (start.Admits config.besideRange ∧ start.Admits config.rangeFile) ∧
        start.Changes {config.besideRange.place} disk) := by
  refine (achieves_replaceFile h _ trivial (fun _ _ _ => trivial) fun _ _ _ _ => trivial).imp ?_ ?_
  · intro _ disk _ hdone
    obtain ⟨hbeside, -, id, hbecomes⟩ := hdone
    refine ⟨hbeside, hbecomes.changes_move, ?_⟩
    rw [Config.fileBytes, Disk.bytesAt, hbecomes.leaf_eq, Config.place, Config.filePath,
      Function.update_self]
    rfl
  · intro fault disk _ hfailed
    obtain ⟨⟨file, hbecomes⟩, hrefused, hcause, -⟩ := hfailed
    exact ⟨hcause, hrefused, hbecomes.changes_update⟩

/-- The next segment takes the place of the active one, or is refused. -/
theorem Anchored.achieves_rollOver (h : log.Anchored config start lines)
    (hseparate : config.Separate) :
    Achieves log.rollOver start (fun _ => True) (fun log' disk => Sealed config log start log' disk)
      (fun fault disk => Refused config log start fault disk) := by
  rw [rollOver_eq]
  refine Achieves.bind (achieves_lift (meets_sync h.wellFormed log.active.file fun _ _ => trivial)) ?_
  intro _ synced _ hsame
  -- the barrier on the segment that is sealed changes no file
  have hsynced {places : Set Location} : start.Changes places synced := hsame.changes fun _ _ => rfl
  rw [ValueLog.extend]
  cases hgrow : log.range.grow? with
  | none => exact achieves_throw trivial (.exhausted hgrow hsynced)
  | some range =>
    dsimp only
    rw [h.rangeFile_eq, bind_assoc]
    refine Achieves.bind ((achieves_storeRange hsame.wellFormed range).imp_failed ?_) ?_
    · intro fault disk _ hfailed
      obtain ⟨⟨cause, rfl⟩, hrefused, hchanges⟩ := hfailed
      rw [hsame.admits_iff, hsame.admits_iff] at hrefused
      exact .unstored hrefused (hsynced.trans hchanges)
    intro _ stored _ hstored
    obtain ⟨hbeside, hchanges, hbytes⟩ := hstored
    have hbeside := hsame.admits_iff.mp hbeside
    have hchanges : start.Changes {config.besideRange.place, config.place .range} stored :=
      hsynced.trans hchanges
    -- the id is taken in the range file from here on, whether or not the segment can be made
    rw [pure_bind, ValueLog.openNext, segmentFile_eq h.stem_eq]
    refine Achieves.bind ((achieves_create hchanges.wellFormed (config.segmentFile log.range.next)
      trivial fun _ _ _ => trivial).imp_failed ?_) ?_
    · intro fault disk _ hfailed
      obtain ⟨rfl, hrefused, cause, rfl⟩ := hfailed
      exact .uncreated hbeside (fun hadmits => hrefused (hchanges.admits_iff.mpr hadmits)) hgrow
        hchanges hbytes
    intro file disk _ hcreated
    obtain ⟨hadmits, hbecomes⟩ := hcreated
    have hnext : config.place .range ≠ config.place (.segment log.range.next) :=
      hseparate.place_ne (by simp)
    have hrange : config.fileBytes disk .range = config.fileBytes stored .range :=
      Config.fileBytes_of_changes hbecomes.changes_update hnext
    refine achieves_pure trivial ⟨hbeside, hchanges.admits_iff.mp hadmits,
      ⟨range, file, hgrow, rfl, ?_⟩, ?_, hrange.trans hbytes⟩
    · rw [hbecomes.leaf_eq]
      exact Function.update_self _ _ _
    · refine (hchanges.mono ?_).trans (hbecomes.changes_update.mono ?_)
      · rintro place (rfl | rfl)
        · exact .inl rfl
        · exact .inr (.inl rfl)
      · rintro place rfl
        exact .inr (.inr rfl)

/-- Only the range file and the one beside it may have changed. -/
theorem Refused.changes (h : Refused config log start fault disk) :
    start.Changes {config.besideRange.place, config.place .range} disk := by
  cases h with
  | exhausted _ hchanges => exact hchanges.mono (Set.empty_subset _)
  | unstored _ hchanges => exact hchanges.mono (Set.singleton_subset_iff.mpr (.inl rfl))
  | uncreated _ _ _ hchanges _ => exact hchanges

/-- Where no segment took its place, what is seen of the log is as it was. -/
theorem Refused.sight_eq (h : Refused config log start fault disk) (hseparate : config.Separate) :
    log.sight config disk = log.sight config start :=
  sight_of_changes h.changes fun file hfile => by
    simp [(hseparate.besideRange file).symm, hseparate.place_ne hfile]

/-- A refusal leaves the ends of the files where they were. -/
theorem Refused.anchored (h : Refused config log start fault disk)
    (hlog : log.Anchored config start lines) (hseparate : config.Separate) :
    log.Anchored config disk lines := by
  have hother : ∀ file, file ≠ .range → config.place file ∉
      ({config.besideRange.place, config.place .range} : Set Location) := fun file hfile => by
    simp [(hseparate.besideRange file).symm, hseparate.place_ne hfile]
  exact hlog.of_changes h.changes (hother _ (by simp)) (hother _ (by simp))

namespace Sealed

/-- Behind the change to the next segment the ends of the files are known. -/
theorem anchored (h : Sealed config log start log' disk) (hlog : log.Anchored config start lines)
    (hseparate : config.Separate) : log'.Anchored config disk lines := by
  obtain ⟨range, file, hgrow, rfl, hleaf⟩ := h.exists_eq
  obtain ⟨-, hnext⟩ := SegmentRange.of_grow? hgrow
  have hlt : log.range.next < range.next := UInt64.lt_iff_toNat_lt.mpr (by omega)
  exact { hlog with
    wellFormed := h.changes.wellFormed
    active_lt_next := hlt
    reaches := h.changes.reaches_iff.mpr h.admits.toReaches
    index_leaf := (h.changes.leaf_eq
      (hseparate.not_mem_growthPlaces (by simp) (by simp))).trans hlog.index_leaf
    active_leaf := ⟨[], hleaf, rfl⟩ }

/-- The change to the next segment is told from what is in sight. -/
theorem rollOver?_sight (h : Sealed config log start log' disk) (hseparate : config.Separate) :
    (log.sight config start).rollOver? = some (log'.sight config disk) := by
  obtain ⟨range, file, hgrow, rfl, hleaf⟩ := h.exists_eq
  have hgrow' : (log.sight config start).range.grow? = some range := hgrow
  rw [Sight.rollOver?, hgrow', Option.map_some]
  -- the fields are those of `log'`; of the files only the next segment and the range file are written
  refine congrArg some (Sight.ext rfl rfl rfl rfl rfl rfl (funext fun other => ?_))
  dsimp only [sight]
  by_cases hsegment : other = .segment log.range.next
  · subst hsegment
    rw [Function.update_self, if_neg (by simp)]
    exact (Disk.bytesAt_of_leaf hleaf).symm
  rw [Function.update_of_ne hsegment]
  split
  · rfl
  · rename_i hrange
    exact (Config.fileBytes_of_changes h.changes
      (hseparate.not_mem_growthPlaces hrange hsegment)).symm

end Sealed

/-! ## Appending a record -/

/-- A record stands at the end of the active segment and its line at the end of the index log, and its
address is staged. -/
structure Appended (config : Config) (log : ValueLog) (record : Record) (start : Disk)
    (log' : ValueLog) (disk : Disk) : Prop where
  exists_eq : ∃ address records lines,
    (Position.mk log.active.id log.active.length).address? log.capacity = some address ∧
    log' = { log with
      index := { log.index with staged := log.index.staged.insert record.key address }
      active := { log.active with length := log.active.length + record.length } } ∧
    start.leaf (config.place (.segment log.active.id)) = some (log.active.file, records) ∧
    start.leaf (config.place .index) = some (log.index.log, lines) ∧
    Tracks.Written config log start (lines ++ Line.encode record.key address) (records ++ record.encode) disk

/-- A record is appended unless there is no address for it, and then nothing happens. -/
theorem Anchored.achieves_append (h : log.Anchored config start lines) (hseparate : config.Separate)
    (hpath : log.index.path = config.indexLog) (record : Record) :
    Achieves (log.append record) start (fun _ => True)
      (fun log' disk => Appended config log record start log' disk)
      (fun fault disk => fault = .arithmetic ∧ start = disk ∧
        (Position.mk log.active.id log.active.length).address? log.capacity = none) := by
  obtain ⟨records, hleaf, hlength⟩ := h.active_leaf
  unfold ValueLog.append
  dsimp only
  cases haddress : (Position.mk log.active.id log.active.length).address? log.capacity with
  | none => exact achieves_throw trivial ⟨rfl, rfl, rfl⟩
  | some address =>
  -- the record first, then its line, and nothing in between can fail
  refine Achieves.bind (achieves_lift (meets_write_end h.wellFormed hleaf hlength.symm record.encode
    fun _ _ _ => trivial)) ?_
  intro _ middle _ hbecomes
  have hindex : config.place .index ≠ config.place (.segment log.active.id) :=
    hseparate.place_ne (by simp)
  have hwritten : Tracks.Written config log start (IndexLog.encodeEntries lines)
      (records ++ record.encode) middle := by
    refine ⟨hbecomes.changes_update.mono (Set.singleton_subset_iff.mpr (.inr rfl)), ?_, ?_⟩
    · rw [hbecomes.leaf_eq, Function.update_of_ne hindex, h.index_leaf]
    · rw [hbecomes.leaf_eq, Function.update_self]
  have hplace : log.index.path.place = config.place .index := by
    rw [hpath]
    rfl
  have hlines := hwritten.index_leaf
  rw [← hplace] at hlines
  refine Achieves.bind (achieves_lift (Index.meets_put hbecomes.wellFormed hlines record.key address
    fun _ _ _ => trivial)) ?_
  intro index disk _ hput
  obtain ⟨rfl, hbecomes'⟩ := hput
  rw [hplace] at hbecomes'
  exact achieves_pure trivial ⟨address, records, _, haddress, rfl, hleaf, h.index_leaf,
    hwritten.line hseparate hbecomes'⟩

namespace Appended

/-- A record that is appended changes its segment and the index log. -/
theorem changes (h : Appended config log record start log' disk) :
    start.Changes (Tracks.appendPlaces config log) disk := by
  obtain ⟨_, _, _, -, -, -, -, hwritten⟩ := h.exists_eq
  exact hwritten.changes

theorem range_eq (h : Appended config log record start log' disk) : log'.range = log.range := by
  obtain ⟨_, _, _, -, rfl, -⟩ := h.exists_eq
  rfl

/-- Behind it the ends of the files are known. -/
theorem exists_anchored (h : Appended config log record start log' disk)
    (hlog : log.Anchored config start lines) : ∃ lines, log'.Anchored config disk lines := by
  obtain ⟨address, records, _, -, rfl, hrecords, hlines, hwritten⟩ := h.exists_eq
  obtain ⟨_, hleaf, hlength⟩ := hlog.active_leaf
  obtain ⟨-, rfl⟩ := Prod.mk.inj (Option.some.inj (hleaf.symm.trans hrecords))
  obtain ⟨-, rfl⟩ := Prod.mk.inj (Option.some.inj (hlog.index_leaf.symm.trans hlines))
  exact ⟨lines ++ [(record.key, address)], { hlog with
    wellFormed := hwritten.changes.wellFormed
    reaches := hwritten.changes.reaches_iff.mpr hlog.reaches
    index_leaf := by
      rw [IndexLog.encodeEntries_append, IndexLog.encodeEntries_singleton]
      exact hwritten.index_leaf
    active_leaf := ⟨_, hwritten.active_leaf, by simp [hlength]⟩ }⟩

/-- It is told from what is in sight. -/
theorem append?_sight (h : Appended config log record start log' disk)
    (hseparate : config.Separate) :
    (log.sight config start).append? record = some (log'.sight config disk) := by
  obtain ⟨address, records, lines, haddress, hlog, hrecords, hlines, hwritten⟩ := h.exists_eq
  have hbytes {last : ValueLog} {disk : Disk} {file : ValueFile} {id : FileId} {bytes : Bytes}
      (hfile : file ≠ .range) (hleaf : disk.leaf (config.place file) = some (id, bytes)) :
      (last.sight config disk).files file = some bytes :=
    (files_sight hfile).trans (Disk.bytesAt_of_leaf hleaf)
  have haddress : (Position.mk (log.sight config start).active
      (log.sight config start).length).address? (log.sight config start).capacity = some address :=
    haddress
  rw [Sight.append?, haddress, Option.map_some, hlog]
  -- the fields are those of `log'`; of the files the active segment and the index log are written
  refine congrArg some (Sight.ext rfl rfl rfl rfl rfl rfl (funext fun file => ?_))
  rw [← hlog]
  by_cases hsegment : file = .segment log.active.id
  · subst hsegment
    rw [hbytes (by simp) hwritten.active_leaf]
    exact (Function.update_self _ _ _).trans
      (congrArg (Option.map (· ++ record.encode)) (hbytes (by simp) hrecords))
  refine (Function.update_of_ne hsegment _ _).trans ?_
  by_cases hindex : file = .index
  · subst hindex
    rw [hbytes (by simp) hwritten.index_leaf]
    exact (Function.update_self _ _ _).trans
      (congrArg (Option.map (· ++ Line.encode record.key address)) (hbytes (by simp) hlines))
  refine (Function.update_of_ne hindex _ _).trans ?_
  by_cases hrange : file = .range
  · rw [hrange]
    rfl
  · rw [files_sight hrange, files_sight hrange, Config.fileBytes_of_changes hwritten.changes
      (Tracks.not_mem_appendPlaces hseparate hindex hsegment)]

end Appended

/-! ## A whole write -/

/-- There is room for a record of that length. -/
inductive Roomy (config : Config) (log : ValueLog) (length : Nat) (start : Disk) :
    ValueLog → Disk → Prop
  /-- There was. -/
  | there : log.isFull length = false → Roomy config log length start log start
  /-- The next segment has been opened for it. -/
  | made {log' : ValueLog} {disk : Disk} : log.isFull length = true →
      Sealed config log start log' disk → Roomy config log length start log' disk

/-- The ways in which a write ends. -/
inductive Comes (config : Config) (log : ValueLog) (record : Record) (start : Disk) :
    ValueLog × Except Fault Unit → Disk → Prop
  /-- The record did not fit, and no segment took the place of the active one. -/
  | refused {fault : Fault} {disk : Disk} : log.isFull record.length = true →
      Refused config log start fault disk → Comes config log record start (log, .error fault) disk
  /-- There is no address for the record. -/
  | unaddressed {log' : ValueLog} {disk : Disk} : Roomy config log record.length start log' disk →
      (Position.mk log'.active.id log'.active.length).address? log'.capacity = none →
      Comes config log record start (log', .error .arithmetic) disk
  /-- All went well. -/
  | stored {roomy log' : ValueLog} {middle disk : Disk} :
      Roomy config log record.length start roomy middle →
      Appended config roomy record middle log' disk →
      Comes config log record start (log', .ok ()) disk

namespace Roomy

variable {length : Nat}

theorem exists_anchored (h : Roomy config log length start log' disk)
    (hlog : log.Anchored config start lines) (hseparate : config.Separate) :
    log'.Anchored config disk lines := by
  cases h with
  | there => exact hlog
  | made _ hsealed => exact hsealed.anchored hlog hseparate

theorem changes (h : Roomy config log length start log' disk) (hwell : start.WellFormed) :
    start.Changes config.ownPlaces disk := by
  cases h with
  | there => exact .refl hwell
  | made _ hsealed => exact hsealed.changes.mono (growthPlaces_subset_own _)

theorem path_eq (h : Roomy config log length start log' disk) :
    log'.index.path = log.index.path := by
  cases h with
  | there => rfl
  | made _ hsealed =>
    obtain ⟨_, _, -, rfl, -⟩ := hsealed.exists_eq
    rfl

/-- So is room for a record. -/
theorem makeRoom?_sight (h : Roomy config log length start log' disk)
    (hseparate : config.Separate) :
    (log.sight config start).makeRoom? length = some (log'.sight config disk) := by
  rw [Sight.makeRoom?, isFull_sight]
  cases h with
  | there hroom => rw [if_neg (by simp [hroom])]
  | made hfull hsealed => rw [if_pos hfull, hsealed.rollOver?_sight hseparate]

end Roomy

/-- Whatever the disk, a write ends in one of these ways. -/
theorem Anchored.meets_put (h : log.Anchored config start lines) (hseparate : config.Separate)
    (hpath : log.index.path = config.indexLog) (key value : Bytes) :
    Meets (log.put key value) start (fun _ => True) (Comes config log ⟨key, value⟩ start) := by
  -- room is made first, and that may be refused
  have hroom : Achieves (log.makeRoom (Record.length ⟨key, value⟩)) start (fun _ => True)
      (fun log' disk => Roomy config log (Record.length ⟨key, value⟩) start log' disk)
      (fun fault disk => log.isFull (Record.length ⟨key, value⟩) = true ∧
        Refused config log start fault disk) := by
    unfold ValueLog.makeRoom
    split
    · rename_i hfull
      exact (h.achieves_rollOver hseparate).imp (fun _ _ _ hsealed => .made hfull hsealed)
        fun _ _ _ hrefused => ⟨hfull, hrefused⟩
    · rename_i hroom
      exact achieves_pure trivial (.there (Bool.eq_false_iff.mpr hroom))
  rw [put_eq]
  refine Meets.bind hroom ?_
  intro outcome middle _ hmade
  cases outcome with
  | error fault => exact meets_pure trivial (.refused hmade.1 hmade.2)
  | ok roomy =>
    have hroomy : Roomy config log (Record.length ⟨key, value⟩) start roomy middle := hmade
    -- then the record is appended, if there is an address for it
    refine Meets.bind ((hroomy.exists_anchored h hseparate).achieves_append hseparate
      (hroomy.path_eq.trans hpath) ⟨key, value⟩) ?_
    intro outcome disk _ happended
    cases outcome with
    | error fault =>
      obtain ⟨rfl, rfl, haddress⟩ := happended
      exact meets_pure trivial (.unaddressed hroomy haddress)
    | ok log' => exact meets_pure trivial (.stored hroomy happended)

namespace Comes

variable {outcome : Except Fault Unit}

/-- A write that goes well does to what is seen what it does everywhere. -/
theorem put?_sight (h : Comes config log record start (log', .ok ()) disk)
    (hseparate : config.Separate) :
    (log.sight config start).put? record = some (log'.sight config disk) := by
  cases h with
  | stored hroomy happended =>
    rw [Sight.put?, hroomy.makeRoom?_sight hseparate, Option.bind_some,
      happended.append?_sight hseparate]

/-- A write runs out of ids or addresses where it does so everywhere. -/
theorem put?_sight_of_arithmetic
    (h : Comes config log record start (log', .error .arithmetic) disk)
    (hseparate : config.Separate) : (log.sight config start).put? record = none := by
  cases h with
  | refused hfull hrefused =>
    cases hrefused with
    | exhausted hgrow _ =>
      have hgrow : (log.sight config start).range.grow? = none := hgrow
      rw [Sight.put?, Sight.makeRoom?, isFull_sight, if_pos hfull, Sight.rollOver?, hgrow]
      rfl
  | unaddressed hroomy haddress =>
    have haddress : (Position.mk (log'.sight config disk).active
        (log'.sight config disk).length).address? (log'.sight config disk).capacity = none :=
      haddress
    rw [Sight.put?, hroomy.makeRoom?_sight hseparate, Option.bind_some, Sight.append?, haddress]
    rfl

/-- A write that fails for a file leaves the log as it was, and what is seen of it. -/
theorem eq_of_io {cause : IoFault}
    (h : Comes config log record start (log', .error (.io cause)) disk)
    (hseparate : config.Separate) :
    log' = log ∧ log.isFull record.length = true ∧ Refused config log start (.io cause) disk ∧
      log.sight config disk = log.sight config start := by
  cases h with
  | refused hfull hrefused => exact ⟨rfl, hfull, hrefused, hrefused.sight_eq hseparate⟩

/-- A write never goes well that needs a segment where there can be none. -/
theorem refused_of_blocked (h : Comes config log record start (log', outcome) disk)
    (hfull : log.isFull record.length = true)
    (hblocked : ¬ (start.Admits config.besideRange ∧
      start.Admits (config.segmentFile log.range.next))) :
    ∃ fault, outcome = .error fault ∧ log' = log ∧ Refused config log start fault disk := by
  -- there is no room, and none can be made
  have hnone {roomy : ValueLog} {middle : Disk}
      (hroomy : Roomy config log record.length start roomy middle) : False := by
    cases hroomy with
    | there hroom => exact Bool.false_ne_true (hroom.symm.trans hfull)
    | made _ hsealed => exact hblocked ⟨hsealed.admits_besideRange, hsealed.admits⟩
  cases h with
  | refused _ hrefused => exact ⟨_, rfl, rfl, hrefused⟩
  | unaddressed hroomy _ => exact (hnone hroomy).elim
  | stored hroomy _ => exact (hnone hroomy).elim

/-- Where files can be made, a write ends well or runs out of ids or addresses. -/
theorem eq_arithmetic (h : Comes config log record start (log', .error fault) disk)
    (hrange : start.Admits config.rangeFile) (hbeside : start.Admits config.besideRange)
    (hsegment : start.Admits (config.segmentFile log.range.next)) : fault = .arithmetic := by
  cases h with
  | refused _ hrefused =>
    cases hrefused with
    | exhausted => rfl
    | unstored hrefused _ => exact absurd ⟨hbeside, hrange⟩ hrefused
    | uncreated _ hrefused => exact absurd hsegment hrefused
  | unaddressed => rfl

/-- Only files of the value log have changed. -/
theorem changes (h : Comes config log record start (log', outcome) disk) (hwell : start.WellFormed) :
    start.Changes config.ownPlaces disk := by
  cases h with
  | refused _ hrefused =>
    refine hrefused.changes.mono ?_
    rintro place (rfl | rfl)
    · exact .inr (.inr (.inl rfl))
    · exact Config.place_mem_ownPlaces .range
  | unaddressed hroomy _ => exact hroomy.changes hwell
  | stored hroomy happended =>
    refine (hroomy.changes hwell).trans (happended.changes.mono ?_)
    rintro place (rfl | rfl)
    · exact Config.place_mem_ownPlaces .index
    · exact Config.place_mem_ownPlaces _

end Comes

/-! ## A barrier -/

/-- A barrier does to what is seen what it does everywhere. -/
theorem Anchored.meets_sync (h : log.Anchored config start lines) :
    Meets log.sync start (fun _ => True) fun log' disk =>
      log'.sight config disk = (log.sight config start).sync ∧ log'.range = log.range ∧
        log'.index.path = log.index.path ∧ start.Changes ∅ disk ∧ log'.Anchored config disk lines := by
  refine (spares_sync h.wellFormed log).mono (fun _ _ => trivial) ?_
  intro log' disk _ hsynced
  obtain ⟨rfl, hspares, -⟩ := hsynced
  have hchanges : start.Changes ∅ disk := hspares.toChanges
  have hsame := h.of_changes hchanges (Set.notMem_empty _) (Set.notMem_empty _)
  refine ⟨?_, rfl, rfl, hchanges, hsame.congr⟩
  exact congrArg Sight.sync (sight_of_changes hchanges fun _ _ => Set.notMem_empty _)

end ValueLog

end BarrierStore
