import BarrierStore.Proofs.ValueLog.Reopening

/-!
# The steps of a write and of a barrier

A write to a value log and a barrier come in steps, and between two of them others may take theirs. Each
step is about a place or two: it adds at the end of a file, or brings a file to the medium, or makes a
file that no address names. So a record that stands in a segment stands there for good, and no step takes
from the medium what has reached it.

The module introduces:

* `ValueLog.extend`, `ValueLog.openNext` — the two steps behind the sealing of a segment;
* `ValueLog.writeRecord`, `ValueLog.writeLine`, `ValueLog.stage` — the steps of an append;
* `ValueLog.syncIndex`, `ValueLog.publish` — the last two steps of a barrier;
* `ValueLog.Anchored` — the files of an open log are there and end where the log writes on;
* `Config.Stands` — an address names a record in a segment; `Config.Covered`, all of it has reached the
  medium, and `Config.Backed`, it has or it is in the last segment;
* `Config.Carries` — what stood and what had reached the medium still does.

Main statements: one lemma for each step, `Anchored.syncActive`, `Anchored.extend`, `Anchored.openNext`,
`Anchored.writeRecord`, `Anchored.writeLine` and `Anchored.syncIndex`; and `Anchored.put` for a whole write,
whether or not it goes well.
-/

namespace BarrierStore

open Drive

namespace ValueLog

/-! ## The steps -/

/-- Take one more segment into the range file. -/
def extend (log : ValueLog) : DiskM SegmentRange := do
  let some range := log.range.grow? | throw .arithmetic
  range.store log.rangeFile
  return range

/-- Open the next segment. -/
def openNext (log : ValueLog) (range : SegmentRange) : DiskM ValueLog := do
  let id := log.range.next
  let file ← Drive.create (log.segmentFile id)
  return { log with range, active := { id, file, length := 0 } }

/-- Write a record at the end of the active segment, and answer with its address. -/
def writeRecord (log : ValueLog) (record : Record) : DiskM (ValueLog × UInt64) := do
  let position : Position := ⟨log.active.id, log.active.length⟩
  let some address := position.address? log.capacity | throw .arithmetic
  Drive.write log.active.file log.active.length record.encode
  return ({ log with active := { log.active with length := log.active.length + record.length } },
    address)

/-- Write the line of a binding at the end of the index log. -/
def writeLine (log : ValueLog) (key : Bytes) (address : UInt64) : StateM Drive Unit :=
  Drive.append log.index.log (Line.encode key address)

/-- Stage a binding. -/
def stage (log : ValueLog) (key : Bytes) (address : UInt64) : ValueLog :=
  { log with index := { log.index with staged := log.index.staged.insert key address } }

/-- Wait for the index log. -/
def syncIndex (log : ValueLog) : StateM Drive Unit :=
  Drive.sync log.index.log

/-- Make the bindings of a batch visible. -/
def publish (log : ValueLog) (batch : AddressMap) : ValueLog :=
  { log with index := log.index.publish batch }

/-- The change to the next segment takes three steps. -/
theorem rollOver_eq (log : ValueLog) :
    log.rollOver = (do
      log.syncActive
      let range ← log.extend
      log.openNext range) := by
  unfold rollOver extend
  refine bind_congr fun _ => ?_
  cases log.range.grow? with
  | none => rfl
  | some range =>
    simp only [bind_assoc, pure_bind]
    rfl

/-- A record takes two, and then its binding is staged. -/
theorem append_eq (log : ValueLog) (record : Record) :
    log.append record = do
      let (log, address) ← log.writeRecord record
      log.writeLine record.key address
      return log.stage record.key address := by
  unfold append writeRecord
  dsimp only
  cases (Position.mk log.active.id log.active.length).address? log.capacity with
  | none => rfl
  | some address => rfl

/-- What comes of a write, from what comes of its two halves. -/
theorem run_put (log : ValueLog) (key value : Bytes) (drive : Drive) :
    (log.put key value).run drive =
      match (log.makeRoom (Record.length ⟨key, value⟩)).run.run drive with
      | (.error fault, drive) => ((log, .error fault), drive)
      | (.ok log, drive) =>
        match (log.append ⟨key, value⟩).run.run drive with
        | (.error fault, drive) => ((log, .error fault), drive)
        | (.ok log, drive) => ((log, .ok ()), drive) := rfl

/-! ## What stands in the segments -/

/-- The files of an open log are there and end where the log writes on. The lines are those of the index
log. -/
structure Anchored (config : Config) (log : ValueLog) (disk : Disk) (lines : List (Bytes × UInt64)) :
    Prop where
  wellFormed : disk.WellFormed
  capacity_ne : config.capacity ≠ 0
  capacity_eq : log.capacity = config.capacity
  stem_eq : log.segmentStem = config.segmentStem
  rangeFile_eq : log.rangeFile = config.rangeFile
  active_lt_next : log.active.id < log.range.next
  reaches : disk.Reaches (config.segmentFile log.active.id)
  index_leaf : disk.leaf (config.place .index) = some (log.index.log, IndexLog.encodeEntries lines)
  active_leaf : ∃ bytes, disk.leaf (config.place (.segment log.active.id)) =
    some (log.active.file, bytes) ∧ bytes.length = log.active.length

end ValueLog

namespace Config

/-- The address names a position, in a segment up to the last one, at which the record is in its file. -/
structure Stands (config : Config) (last : UInt64) (disk : Disk) (address : UInt64) (record : Record)
    (position : Position) : Prop where
  position_eq : Position.ofAddress? address config.capacity = some position
  segment_le : position.segment ≤ last
  small : record.Small
  exists_bytes : ∃ file bytes, disk.leaf (config.place (.segment position.segment)) =
    some (file, bytes) ∧ record.encode <+: bytes.drop position.offset

/-- The whole record at a position has reached the medium. -/
def Safe (config : Config) (disk : Disk) (record : Record) (position : Position) : Prop :=
  position.offset + record.length ≤ disk.durableAt (config.place (.segment position.segment))

/-- The record stands at the address, and all of it has reached the medium. -/
def Covered (config : Config) (last : UInt64) (disk : Disk) (address : UInt64) (record : Record) :
    Prop :=
  ∃ position, config.Stands last disk address record position ∧ config.Safe disk record position

/-- The record stands at the address, and all of it has reached the medium or will do so with the last
segment. -/
def Backed (config : Config) (last : UInt64) (disk : Disk) (address : UInt64) (record : Record) :
    Prop :=
  ∃ position, config.Stands last disk address record position ∧
    (position.segment = last ∨ config.Safe disk record position)

/-- What stood before stands there still, what had reached the medium has not left it, and the files of
others are as they were. Another segment may have become the last one. -/
structure Carries (config : Config) (last : UInt64) (start : Disk) (last' : UInt64) (disk : Disk) :
    Prop where
  changes : start.Changes config.ownPlaces disk
  backed {address : UInt64} {record : Record} :
    config.Backed last start address record → config.Backed last' disk address record
  covered {address : UInt64} {record : Record} :
    config.Covered last start address record → config.Covered last' disk address record
  index_le : start.durableAt (config.place .index) ≤ disk.durableAt (config.place .index)

variable {config : Config} {last last' last'' : UInt64} {start middle disk : Disk} {address : UInt64}
  {record : Record} {position : Position} {places : Set Location}

theorem Covered.backed (h : config.Covered last disk address record) :
    config.Backed last disk address record := by
  obtain ⟨position, hstands, hsafe⟩ := h
  exact ⟨position, hstands, .inr hsafe⟩

namespace Stands

/-- A record ends within the bytes that it stands in. -/
theorem end_le {bytes : Bytes} (h : config.Stands last disk address record position)
    (hbytes : disk.bytesAt (config.place (.segment position.segment)) = some bytes) :
    position.offset + record.length ≤ bytes.length := by
  obtain ⟨file, found, hleaf, hprefix⟩ := h.exists_bytes
  obtain rfl : found = bytes := Option.some.inj ((Disk.bytesAt_of_leaf hleaf).symm.trans hbytes)
  have hlength := hprefix.length_le
  have hpos := record.length_pos
  rw [Record.length_encode, List.length_drop] at hlength
  omega

/-- A record is found at its address in the file of its segment. -/
theorem exists_file (h : config.Stands last disk address record position)
    (hreaches : disk.Reaches (config.segmentFile last)) : ∃ file,
      disk.nodeAt (config.segmentFile position.segment) = .ok (.file file) ∧
        disk.node? (config.place (.segment position.segment)) = some (.file file) ∧
        (disk.contents file).recordAt? position.offset = some record := by
  obtain ⟨file, bytes, hleaf, rest, hrest⟩ := h.exists_bytes
  obtain ⟨hnode, hbytes⟩ := Disk.leaf_eq_some_iff.mp hleaf
  have hreaches : disk.Reaches (config.segmentFile position.segment) :=
    hreaches.segment_le h.segment_le
  refine ⟨file, ?_, hnode, ?_⟩
  · have hnode : disk.node? (config.segmentFile position.segment).place = some (.file file) := hnode
    rw [hreaches.nodeAt_eq, hnode]
  · rw [Contents.recordAt?_eq, hbytes, ← hrest, Record.parse?_encode_append h.small.key h.small.value]
    rfl

/-- A record stands where it is when its file is written on. -/
theorem of_prolongs (h : config.Stands last start address record position)
    (hprolongs : start.Prolongs places disk)
    (hplace : config.place (.segment position.segment) ∉ places) (hle : last ≤ last') :
    config.Stands last' disk address record position := by
  obtain ⟨file, bytes, hleaf, hprefix⟩ := h.exists_bytes
  obtain ⟨more, hmore⟩ := hprolongs.exists_more hplace hleaf
  refine ⟨h.position_eq, UInt64.le_trans h.segment_le hle, h.small, file, bytes ++ more, hmore, ?_⟩
  -- the record lies in front of what was added
  have hpos := record.length_pos
  have hlength := h.end_le (Disk.bytesAt_of_leaf hleaf)
  rw [List.drop_append_of_le_length (by omega)]
  exact hprefix.trans (List.prefix_append _ _)

end Stands

/-- Where the last segment has reached the medium, so have all records. -/
theorem Backed.covered (h : config.Backed last disk address record)
    (hfirm : disk.Firm (config.place (.segment last))) :
    config.Covered last disk address record := by
  obtain ⟨position, hstands, hlast | hsafe⟩ := h
  · refine ⟨position, hstands, ?_⟩
    obtain ⟨file, bytes, hleaf, -⟩ := hstands.exists_bytes
    have hbytes := Disk.bytesAt_of_leaf hleaf
    exact Nat.le_trans (hstands.end_le hbytes) (hlast ▸ hfirm _ (hlast ▸ hbytes))
  · exact ⟨position, hstands, hsafe⟩

/-- Files that are prolonged have the record still. -/
theorem Backed.of_prolongs (h : config.Backed last start address record)
    (hprolongs : start.Prolongs places disk)
    (hsegment : ∀ id, id ≤ last → config.place (.segment id) ∉ places) :
    config.Backed last disk address record := by
  obtain ⟨position, hstands, hsafe⟩ := h
  have hplace := hsegment _ hstands.segment_le
  exact ⟨position, hstands.of_prolongs hprolongs hplace (UInt64.le_refl _),
    hsafe.imp_right fun hsafe => Nat.le_trans hsafe (hprolongs.durable_le hplace)⟩

/-- It is on the medium still. -/
theorem Covered.of_prolongs (h : config.Covered last start address record)
    (hprolongs : start.Prolongs places disk)
    (hsegment : ∀ id, id ≤ last → config.place (.segment id) ∉ places) (hle : last ≤ last') :
    config.Covered last' disk address record := by
  obtain ⟨position, hstands, hsafe⟩ := h
  have hplace := hsegment _ hstands.segment_le
  exact ⟨position, hstands.of_prolongs hprolongs hplace hle,
    Nat.le_trans hsafe (hprolongs.durable_le hplace)⟩

namespace Carries

theorem refl (h : disk.WellFormed) : config.Carries last disk last disk :=
  ⟨.refl h, fun hbacked => hbacked, fun hcovered => hcovered, Nat.le_refl _⟩

theorem trans (h : config.Carries last start last' middle)
    (h' : config.Carries last' middle last'' disk) : config.Carries last start last'' disk :=
  ⟨h.changes.trans h'.changes, fun hbacked => h'.backed (h.backed hbacked),
    fun hcovered => h'.covered (h.covered hcovered), Nat.le_trans h.index_le h'.index_le⟩

/-- A step that writes on, or writes elsewhere, carries everything over. -/
theorem of_prolongs (h : start.Prolongs places disk) (hchanges : start.Changes config.ownPlaces disk)
    (hindex : config.place .index ∉ places)
    (hsegment : ∀ id, id ≤ last → config.place (.segment id) ∉ places) :
    config.Carries last start last disk where
  changes := hchanges
  backed hbacked := hbacked.of_prolongs h hsegment
  covered hcovered := hcovered.of_prolongs h hsegment (UInt64.le_refl _)
  index_le := h.durable_le hindex

/-- A step that spares the index log and the segments carries everything over. -/
theorem of_spares (h : start.Spares places disk) (hplaces : places ⊆ config.ownPlaces)
    (hindex : config.place .index ∉ places)
    (hsegment : ∀ id, id ≤ last → config.place (.segment id) ∉ places) :
    config.Carries last start last disk :=
  .of_prolongs h.prolongs (h.toChanges.mono hplaces) hindex hsegment

/-- A file of the log that is written on carries everything over. -/
theorem of_written {file : ValueFile} (h : start.Prolongs ∅ disk)
    (hspares : start.Spares {config.place file} disk) : config.Carries last start last disk :=
  .of_prolongs h (hspares.toChanges.mono (Set.singleton_subset_iff.mpr (place_mem_ownPlaces _)))
    (Set.notMem_empty _) fun _ _ => Set.notMem_empty _

/-- The last segment may be left behind when it has reached the medium. -/
theorem of_sealed (h : disk.WellFormed) (hfirm : disk.Firm (config.place (.segment last)))
    (hle : last ≤ last') : config.Carries last disk last' disk := by
  have hnone : ∀ id, id ≤ last → config.place (.segment id) ∉ (∅ : Set Location) :=
    fun _ _ => Set.notMem_empty _
  exact ⟨.refl h, fun hbacked => ((hbacked.covered hfirm).of_prolongs (.refl h) hnone hle).backed,
    fun hcovered => hcovered.of_prolongs (.refl h) hnone hle, Nat.le_refl _⟩

end Carries

end Config

namespace ValueLog

variable {config : Config} {log : ValueLog} {start disk : Disk} {record : Record}
  {places : Set Location} {lines : List (Bytes × UInt64)}

/-! ## The steps, one by one -/

namespace Anchored

/-- The files of a log are there as long as only others change. -/
theorem of_changes (h : log.Anchored config start lines) (hchanges : start.Changes places disk)
    (hindex : config.place .index ∉ places)
    (hactive : config.place (.segment log.active.id) ∉ places) : log.Anchored config disk lines :=
  { h with
    wellFormed := hchanges.wellFormed
    reaches := hchanges.reaches_iff.mpr h.reaches
    index_leaf := (hchanges.leaf_eq hindex).trans h.index_leaf
    active_leaf := by
      rw [hchanges.leaf_eq hactive]
      exact h.active_leaf }

/-- The bindings of a log make no difference to its files. -/
theorem congr (h : log.Anchored config disk lines) {staged applied : AddressMap} :
    Anchored config { log with index := { log.index with staged, applied } } disk lines :=
  { h with }

/-- A reader finds the record that a visible binding names. -/
theorem get_eq (h : log.Anchored config disk lines) {key value : Bytes} {address : UInt64}
    (happlied : log.index.applied[key]? = some address)
    (hbacked : config.Backed log.active.id disk address ⟨key, value⟩) :
    log.get disk key = .ok (some value) := by
  obtain ⟨position, hstands, -⟩ := hbacked
  obtain ⟨file, hnode, -, hrecord⟩ := hstands.exists_file h.reaches
  have hfind : log.find? key = some address := happlied
  have hposition : Position.ofAddress? address log.capacity = some position := by
    rw [h.capacity_eq]
    exact hstands.position_eq
  have hnodeAt : disk.nodeAt (log.segmentFile position.segment) = .ok (.file file) := by
    rw [segmentFile_eq h.stem_eq]
    exact hnode
  simp only [ValueLog.get, hfind, hposition, readAt, hnodeAt, hrecord, if_true]
  rfl

/-- A record that need not go to the next segment starts below the capacity. -/
theorem below (h : log.Anchored config disk lines) {length : Nat} (hroom : ¬ log.isFull length)
    (hlength : 0 < length) : log.active.length < config.capacity.toNat := by
  have hpos := Position.capacity_pos h.capacity_ne
  simp only [isFull, h.capacity_eq, decide_eq_true_eq, not_and, Nat.not_lt] at hroom
  omega

/-- A file of the log that was waited for has reached the medium. -/
theorem sync (h : log.Anchored config start lines) {file : ValueFile} {id : FileId} {bytes : Bytes}
    (hleaf : start.leaf (config.place file) = some (id, bytes)) :
    Meets (Drive.sync id) start (fun _ => True) fun _ disk => log.Anchored config disk lines ∧
      config.Carries log.active.id start log.active.id disk ∧ disk.Firm (config.place file) ∧
        ∀ other, start.Firm other → disk.Firm other := by
  refine (Drive.spares_sync h.wellFormed id fun _ _ => trivial).imp ?_
  intro _ disk _ hsync
  obtain ⟨hspares, -, hfirm⟩ := hsync
  have hnone : ∀ place : Location, place ∉ (∅ : Set Location) := Set.notMem_empty
  exact ⟨h.of_changes hspares.toChanges (hnone _) (hnone _),
    .of_spares hspares (Set.empty_subset _) (hnone _) fun _ _ => hnone _,
    hfirm _ (Disk.leaf_eq_some_iff.mp hleaf).1, fun _ => hspares.firm (hnone _)⟩

/-- The active segment is waited for. -/
theorem syncActive (h : log.Anchored config start lines) :
    Meets log.syncActive start (fun _ => True) fun _ disk => log.Anchored config disk lines ∧
      config.Carries log.active.id start log.active.id disk ∧
        disk.Firm (config.place (.segment log.active.id)) := by
  obtain ⟨bytes, hleaf, -⟩ := h.active_leaf
  refine (h.sync hleaf).imp ?_
  intro _ disk _ hsync
  obtain ⟨hkept, hcarries, hfirm, -⟩ := hsync
  exact ⟨hkept, hcarries, hfirm⟩

/-- The index log is waited for. -/
theorem syncIndex (h : log.Anchored config start lines) :
    Meets log.syncIndex start (fun _ => True) fun _ disk => log.Anchored config disk lines ∧
      config.Carries log.active.id start log.active.id disk ∧ disk.Firm (config.place .index) ∧
        ∀ other, start.Firm other → disk.Firm other :=
  h.sync h.index_leaf

/-- While the range file takes in one more segment, the segments stay as they are, also where that
fails. -/
theorem extend (h : log.Anchored config start lines) (hseparate : config.Separate) :
    Achieves log.extend start (fun _ => True)
      (fun range disk => log.Anchored config disk lines ∧
        config.Carries log.active.id start log.active.id disk ∧
        log.range.next < range.next ∧ (start.Firm (config.place (.segment log.active.id)) →
          disk.Firm (config.place (.segment log.active.id))))
      (fun _ disk => log.Anchored config disk lines ∧
        config.Carries log.active.id start log.active.id disk) := by
  have hplaces : ({config.besideRange.place, config.place .range} : Set Location) ⊆
      config.ownPlaces := by
    rintro place (rfl | rfl)
    · exact .inr (.inr (.inl rfl))
    · exact Config.place_mem_ownPlaces .range
  have hother : ∀ file, file ≠ .range → config.place file ∉
      ({config.besideRange.place, config.place .range} : Set Location) := fun file hfile => by
    simp [(hseparate.besideRange file).symm, hseparate.place_ne hfile]
  -- whichever way it ends, only the range file and the one beside it have changed
  have hkept (disk : Disk)
      (hspares : start.Spares {config.besideRange.place, config.place .range} disk) :
      log.Anchored config disk lines ∧ config.Carries log.active.id start log.active.id disk :=
    ⟨h.of_changes hspares.toChanges (hother _ (by simp)) (hother _ (by simp)),
      .of_spares hspares hplaces (hother _ (by simp)) fun _ _ => hother _ (by simp)⟩
  unfold ValueLog.extend
  split
  case h_2 => exact achieves_throw trivial (hkept _ (.refl h.wellFormed))
  rename_i range hgrow
  obtain ⟨-, hnext⟩ := SegmentRange.of_grow? hgrow
  have hlt : log.range.next < range.next := UInt64.lt_iff_toNat_lt.mpr (by omega)
  have hstored : Achieves (range.store config.rangeFile) start (fun _ => True) _ _ :=
    spares_replaceFile h.wellFormed (hseparate.besideRange .range) _ fun _ _ _ => trivial
  rw [h.rangeFile_eq]
  refine Achieves.bind (hstored.imp_failed fun _ disk _ hspares => hkept disk hspares.1) ?_
  intro _ disk _ hspares
  obtain ⟨hanchored, hcarries⟩ := hkept disk hspares.1
  exact achieves_pure trivial ⟨hanchored, hcarries, hlt, hspares.1.firm (hother _ (by simp))⟩

/-- The next segment takes the place of one that has reached the medium. Where it cannot be made, nothing
has happened. -/
theorem openNext (h : log.Anchored config start lines) (hseparate : config.Separate)
    (hfirm : start.Firm (config.place (.segment log.active.id))) {range : SegmentRange}
    (hnext : log.range.next < range.next) :
    Achieves (log.openNext range) start (fun _ => True)
      (fun log' disk => log'.Anchored config disk lines ∧
        config.Carries log.active.id start log'.active.id disk ∧
        log'.index = log.index ∧ log'.active.length = 0)
      (fun _ disk => start = disk) := by
  have hcreated : Achieves (create (config.segmentFile log.range.next)) start (fun _ => True) _ _ :=
    achieves_create h.wellFormed _ trivial fun _ _ _ => trivial
  unfold ValueLog.openNext
  dsimp only
  rw [segmentFile_eq h.stem_eq]
  refine Achieves.bind (((spares_create h.wellFormed (config.segmentFile log.range.next)
    fun _ _ => trivial).and hcreated).mono (fun _ _ => trivial) (fun _ _ _ hboth => hboth)
      fun _ _ _ hboth => hboth.1) ?_
  intro file disk _ hboth
  obtain ⟨hspares, hadmits, hbecomes⟩ := hboth
  have hspares : start.Spares {config.place (.segment log.range.next)} disk := hspares
  -- the segments up to the active one are in front of the new one
  have hother : ∀ id, id ≤ log.active.id →
      config.place (.segment id) ∉ ({config.place (.segment log.range.next)} : Set Location) :=
    fun id hid => hseparate.place_ne
      (ValueFile.segment_ne (UInt64.lt_of_le_of_lt hid h.active_lt_next))
  have hindex : config.place .index ∉ ({config.place (.segment log.range.next)} : Set Location) :=
    hseparate.place_ne (by simp)
  have hkept : log.Anchored config disk lines :=
    h.of_changes hspares.toChanges hindex (hother _ (UInt64.le_refl _))
  have hcarries : config.Carries log.active.id start log.active.id disk :=
    .of_spares hspares (Set.singleton_subset_iff.mpr (Config.place_mem_ownPlaces _)) hindex hother
  -- creating a file takes nothing back from the medium
  have hsealed := hspares.firm (hother _ (UInt64.le_refl _)) hfirm
  refine achieves_pure trivial ⟨{ hkept with
    active_lt_next := hnext
    reaches := hspares.reaches_iff.mpr hadmits.toReaches
    active_leaf := ⟨[], ?_, rfl⟩ }, hcarries.trans (.of_sealed hspares.wellFormed hsealed
      (UInt64.le_of_lt h.active_lt_next)), rfl, rfl⟩
  rw [hbecomes.leaf_eq]
  exact Function.update_self _ _ _

/-- A record is written where the active segment ends. Where there is no address for it, nothing has
happened. -/
theorem writeRecord (h : log.Anchored config start lines) (hseparate : config.Separate)
    (hsmall : record.Small) (hbelow : log.active.length < config.capacity.toNat) :
    Achieves (log.writeRecord record) start (fun _ => True)
      (fun (log', address) disk => log'.Anchored config disk lines ∧
        config.Carries log.active.id start log'.active.id disk ∧ log'.index = log.index ∧
        config.Backed log'.active.id disk address record)
      (fun _ disk => start = disk) := by
  obtain ⟨bytes, hleaf, hlength⟩ := h.active_leaf
  unfold ValueLog.writeRecord
  dsimp only
  split
  case h_2 => exact achieves_throw trivial rfl
  rename_i address haddress
  rw [h.capacity_eq] at haddress
  refine Achieves.bind (achieves_lift (prolongs_write h.wellFormed hleaf hlength record.encode)) ?_
  intro _ disk _ hwritten
  obtain ⟨hprolongs, hspares, hleaf'⟩ := hwritten
  have hindex : config.place .index ∉ ({config.place (.segment log.active.id)} : Set Location) :=
    hseparate.place_ne (by simp)
  have hcarries : config.Carries log.active.id start log.active.id disk := .of_written hprolongs hspares
  -- the address was taken where the segment ended, which is where the record begins
  refine achieves_pure trivial ⟨{ h with
    wellFormed := hprolongs.wellFormed
    reaches := hprolongs.reaches h.reaches
    index_leaf := (hspares.leaf_eq hindex).trans h.index_leaf
    active_leaf := ⟨_, hleaf', by simp [hlength]⟩ },
    hcarries, rfl,
    ⟨log.active.id, log.active.length⟩, ⟨Position.ofAddress?_address? hbelow haddress,
      UInt64.le_refl _, hsmall, _, _, hleaf', [], ?_⟩, .inl rfl⟩
  rw [List.append_nil, ← hlength, List.drop_left]

/-- A line is written where the index log ends. -/
theorem writeLine (h : log.Anchored config start lines) (hseparate : config.Separate) (key : Bytes)
    (address : UInt64) :
    Meets (log.writeLine key address) start (fun _ => True) fun _ disk =>
      log.Anchored config disk (lines ++ [(key, address)]) ∧
        config.Carries log.active.id start log.active.id disk := by
  refine (prolongs_append h.wellFormed h.index_leaf _).imp ?_
  intro _ disk _ hwritten
  obtain ⟨hprolongs, hspares, hleaf⟩ := hwritten
  have hactive : config.place (.segment log.active.id) ∉ ({config.place .index} : Set Location) :=
    hseparate.place_ne (by simp)
  refine ⟨{ h with
    wellFormed := hprolongs.wellFormed
    reaches := hprolongs.reaches h.reaches
    index_leaf := ?_
    active_leaf := ?_ }, .of_written hprolongs hspares⟩
  · rw [hleaf, IndexLog.encodeEntries_append, IndexLog.encodeEntries_singleton]
  · rw [hspares.leaf_eq hactive]
    exact h.active_leaf

/-! ## A whole write -/

/-- The next segment takes the place of the active one, or the log goes on as it was. -/
theorem rollOver (h : log.Anchored config start lines) (hseparate : config.Separate) :
    Achieves log.rollOver start (fun _ => True)
      (fun log' disk => log'.Anchored config disk lines ∧
        config.Carries log.active.id start log'.active.id disk ∧
        log'.index = log.index ∧ log'.active.length = 0)
      (fun _ disk => log.Anchored config disk lines ∧
        config.Carries log.active.id start log.active.id disk) := by
  rw [rollOver_eq]
  refine Achieves.bind (achieves_lift h.syncActive) ?_
  intro _ synced _ hsynced
  obtain ⟨hanchored, hcarries, hfirm⟩ := hsynced
  -- from here on a failure leaves the log as it was
  refine Achieves.bind ((hanchored.extend hseparate).imp_failed
    fun _ _ _ hfault => ⟨hfault.1, hcarries.trans hfault.2⟩) ?_
  intro range extended _ hextended
  obtain ⟨hanchored, hextend, hnext, hsealed⟩ := hextended
  refine (hanchored.openNext hseparate (hsealed hfirm) hnext).imp ?_ ?_
  · intro log' disk _ hopened
    exact ⟨hopened.1, (hcarries.trans hextend).trans hopened.2.1, hopened.2.2⟩
  · intro _ _ _ hsame
    obtain rfl := hsame
    exact ⟨hanchored, hcarries.trans hextend⟩

/-- There comes to be room for a record, or the log goes on as it was. -/
theorem makeRoom (h : log.Anchored config start lines) (hseparate : config.Separate) {length : Nat}
    (hlength : 0 < length) :
    Achieves (log.makeRoom length) start (fun _ => True)
      (fun log' disk => log'.Anchored config disk lines ∧
        config.Carries log.active.id start log'.active.id disk ∧
        log'.index = log.index ∧ log'.active.length < config.capacity.toNat)
      (fun _ disk => log.Anchored config disk lines ∧
        config.Carries log.active.id start log.active.id disk) := by
  have hpos := Position.capacity_pos h.capacity_ne
  unfold ValueLog.makeRoom
  split
  · refine (h.rollOver hseparate).imp_done ?_
    intro log' disk _ hrolled
    obtain ⟨hanchored, hcarries, hindex, hempty⟩ := hrolled
    exact ⟨hanchored, hcarries, hindex, by omega⟩
  · rename_i hroom
    exact achieves_pure trivial ⟨h, .refl h.wellFormed, rfl, h.below hroom hlength⟩

/-- A record and its line are written, and the binding is staged; or nothing has happened. -/
theorem append (h : log.Anchored config start lines) (hseparate : config.Separate)
    (hsmall : record.Small) (hbelow : log.active.length < config.capacity.toNat) :
    Achieves (log.append record) start (fun _ => True)
      (fun log' disk => ∃ address, log'.Anchored config disk (lines ++ [(record.key, address)]) ∧
        config.Carries log.active.id start log'.active.id disk ∧
        log'.index = (log.stage record.key address).index ∧
        config.Backed log'.active.id disk address record)
      (fun _ disk => start = disk) := by
  rw [append_eq]
  refine Achieves.bind (h.writeRecord hseparate hsmall hbelow) ?_
  intro written middle _ hwritten
  obtain ⟨log', address⟩ := written
  obtain ⟨hanchored, hcarries, hindex, hbacked⟩ := hwritten
  refine Achieves.bind (achieves_lift (hanchored.writeLine hseparate record.key address)) ?_
  intro _ disk _ hline
  obtain ⟨hanchored, hline⟩ := hline
  have hsame : (log'.stage record.key address).index = (log.stage record.key address).index := by
    rw [stage, stage, hindex]
  exact achieves_pure trivial ⟨address, hanchored.congr, hcarries.trans hline, hsame,
    hline.backed hbacked⟩

/-- A write stages the address of its record, or fails and stages nothing. -/
theorem put (h : log.Anchored config start lines) (hseparate : config.Separate) {key value : Bytes}
    (hsmall : Record.Small ⟨key, value⟩) :
    Meets (log.put key value) start (fun _ => True) fun (log', outcome) disk =>
      (∃ lines', log'.Anchored config disk lines') ∧
        config.Carries log.active.id start log'.active.id disk ∧
        match outcome with
        | .ok () => ∃ address, log'.index = (log.stage key address).index ∧
            config.Backed log'.active.id disk address ⟨key, value⟩
        | .error _ => log'.index = log.index := by
  rw [put_eq]
  refine Meets.bind (h.makeRoom hseparate (Record.length_pos ⟨key, value⟩)) ?_
  intro outcome middle _ hmade
  cases outcome with
  | error fault => exact meets_pure trivial ⟨⟨_, hmade.1⟩, hmade.2, rfl⟩
  | ok sealed =>
    obtain ⟨hanchored, hcarries, hindex, hbelow⟩ := hmade
    refine Meets.bind (hanchored.append hseparate hsmall hbelow) ?_
    intro outcome disk _ happended
    cases outcome with
    -- no address for the record: the room that was made stays, and nothing is staged
    | error fault =>
      obtain rfl := happended
      exact meets_pure trivial ⟨⟨_, hanchored⟩, hcarries, hindex⟩
    | ok log' =>
      obtain ⟨address, hanchored', hcarries', hindex', hbacked⟩ := happended
      refine meets_pure trivial ⟨⟨_, hanchored'⟩, hcarries.trans hcarries', address, ?_, hbacked⟩
      rw [hindex', stage, stage, hindex]

end Anchored

/-! ## Behind an opening -/

variable {origin : UInt64} {base : List (Bytes × UInt64)} {found : Found}

/-- A log that keeps step with its files ends where they do. -/
theorem Tracks.anchored (h : log.Tracks config disk origin base found) (hcapacity : config.capacity ≠ 0) :
    log.Anchored config disk (base ++ found.lines) where
  wellFormed := h.wellFormed
  capacity_ne := hcapacity
  capacity_eq := h.capacity_eq
  stem_eq := h.stem_eq
  rangeFile_eq := h.rangeFile_eq
  active_lt_next := h.active_lt_next
  reaches := h.reaches
  index_leaf := h.index_leaf
  active_leaf := by
    obtain ⟨bytes, hleaf, hlength, -⟩ := h.active_leaf
    exact ⟨bytes, hleaf, hlength⟩

/-- The records of a settled log stand at their addresses, and have reached the medium. -/
theorem Settled.covered (h : log.Settled config disk origin)
    (htracks : log.Tracks config disk origin base found) {entry : Nat × Record}
    (hentry : entry ∈ found) :
    config.Covered log.active.id disk (UInt64.ofNat entry.1) entry.2 := by
  have hfits := htracks.fits entry hentry
  rw [← htracks.scanned_eq] at hentry
  obtain ⟨id, horigin, hnext, hmem⟩ := Config.mem_scanned_iff.mp hentry
  obtain ⟨bytes, offset, hbytes, hbelow, haddress, hrecord⟩ := Config.mem_scannedSegment hmem
  have hsmall := Scan.small_of_recordAt? hrecord
  obtain ⟨⟨file, _⟩, hleaf, rfl⟩ := Option.map_eq_some_iff.mp hbytes
  rw [Contents.recordAt?_eq, Contents.toBytes_ofBytes] at hrecord
  obtain ⟨⟨record, rest⟩, hparse, hsame⟩ := Option.map_eq_some_iff.mp hrecord
  have hle := htracks.le_active hnext
  -- what a scan has read there is the encoding of the record
  have hstands : config.Stands log.active.id disk (UInt64.ofNat entry.1) entry.2 ⟨id, offset⟩ := by
    refine ⟨Position.ofAddress?_address? hbelow ?_, hle, hsmall, file, _, hleaf, rest, ?_⟩
    · rw [Position.address?_eq_some_iff, UInt64.toNat_ofNat_of_lt' hfits]
      exact haddress.symm
    · rw [← hsame]
      exact (Record.eq_encode_append_of_parse? hparse).symm
  have hfirm : disk.Firm (config.place (.segment id)) := by
    rcases UInt64.lt_or_eq_of_le hle with hlt | rfl
    · exact h.sealed id horigin hlt
    · exact h.firm_active
  exact ⟨⟨id, offset⟩, hstands, Nat.le_trans (hstands.end_le hbytes) (hfirm _ hbytes)⟩

/-- Behind an opening, every binding has its line in the index log and its record in a segment, and all of
that has reached the medium. -/
theorem anchored_openAt (h : start.WellFormed) (hseparate : config.Separate) :
    Achieves (openAt config) start (fun _ => True)
      (fun (log, _) disk => ∃ lines, log.Anchored config disk lines ∧
        disk.Firm (config.place .index) ∧ log.index.staged = ∅ ∧
        ∀ key address, log.index.applied[key]? = some address → (key, address) ∈ lines ∧
          ∃ record, record.key = key ∧ config.Covered log.active.id disk address record)
      (fun _ _ => True) := by
  refine ((settled_openAt_anywhere h hseparate).and (achieves_openAt_anywhere h hseparate)).mono
    (fun _ _ => trivial) ?_ fun _ _ _ _ => trivial
  intro state disk _ hboth
  obtain ⟨log, report⟩ := state
  obtain ⟨⟨hcapacity, hsettled⟩, -, old, base, copies, -, hserves, -⟩ := hboth
  have hsettled : log.Settled config disk old.next := hserves.first_eq ▸ hsettled
  refine ⟨_, hserves.toTracks.anchored hcapacity, hsettled.firm_index, hserves.staged_eq, ?_⟩
  intro key address hbinding
  rw [hserves.applied_eq, getElem?_ofEntries] at hbinding
  -- a binding is the last line of its key
  have hline := mem_of_latest hbinding
  rw [Found.latest_lines] at hbinding
  obtain ⟨entry, hlast, rfl⟩ := Option.map_eq_some_iff.mp hbinding
  obtain ⟨hmem, rfl⟩ := Found.mem_of_last? hlast
  exact ⟨List.mem_append_right _ (by simpa using hline), entry.2, rfl,
    hsettled.covered hserves.toTracks (List.mem_append_left _ hmem)⟩

end ValueLog

end BarrierStore
