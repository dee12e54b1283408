import BarrierStore.Proofs.ValueLog.Steps
import Mathlib.Logic.Relation

/-!
# Writes and barriers at the same time

Any number of writes and a row of barriers work on one value log. A write has the active segment to itself
from its first step to its last one, and a barrier has it while it waits for that segment. Apart from
that, their steps come in any order: a barrier may take what is staged, wait for the index log and publish
while a write has come half-way, and between two steps of a barrier any number of writes may be carried
out, with new segments where they need them.

A binding of the barrier may therefore name a record in a segment that is no longer active when the barrier
waits for the active one. That record was brought to the medium when its segment was sealed.

The module introduces:

* `ValueLog.Writer`, `ValueLog.Round` — how far a write and a barrier have come;
* `ValueLog.Machine` — a log and its disk, the writes that wait for the active segment, the one that has
  it, and the barrier;
* `Machine.Writes`, `Machine.Syncs` — the steps of a write and of a barrier, and `Machine.Step`, either;
* `Machine.Durable` — every visible binding has its record and its line on the medium;
* `Machine.Kept` — what every step keeps.

Main statement: `Machine.durable_of_reachable`.
-/

namespace BarrierStore

open Drive

/-! ## The steps -/

namespace ValueLog

/-- How far the write has come that has the active segment to itself. -/
inductive Writer where
  /-- There is no such write. -/
  | idle
  /-- The record does not fit into the active segment. -/
  | full (record : Record)
  /-- The active segment was waited for. -/
  | sealed (record : Record)
  /-- The range file has the next segment. -/
  | extended (record : Record) (range : SegmentRange)
  /-- There is room for the record. -/
  | ready (record : Record)
  /-- The record is written. -/
  | written (key : Bytes) (address : UInt64)
  /-- The line is written. -/
  | lined (key : Bytes) (address : UInt64)

/-- How far the barrier has come. -/
inductive Round where
  /-- There is no barrier. -/
  | idle
  /-- What was staged is taken. -/
  | taken (batch : AddressMap)
  /-- The active segment was waited for. -/
  | waited (batch : AddressMap)
  /-- The index log was waited for. -/
  | flushed (batch : AddressMap)

/-- A log and its disk in use, and what goes on with them. -/
structure Machine where
  log : ValueLog
  drive : Drive
  /-- The records of the writes that wait for the active segment. -/
  waiting : List Record
  /-- The write that has the active segment to itself. -/
  writer : Writer
  /-- The barrier. -/
  round : Round

namespace Machine

/-- Nothing goes on. -/
def start (log : ValueLog) (drive : Drive) : Machine := ⟨log, drive, [], .idle, .idle⟩

/-- A step of a write. -/
inductive Writes (machine : Machine) : Machine → Prop
  /-- One more write waits for the active segment. -/
  | called {record : Record} : record.Small →
      Writes machine { machine with waiting := machine.waiting ++ [record] }
  /-- One of those that wait gets the active segment. -/
  | locked {front rest : List Record} {record : Record} : machine.writer = .idle →
    machine.waiting = front ++ record :: rest →
      Writes machine { machine with
        waiting := front ++ rest
        writer := if machine.log.isFull record.length then .full record else .ready record }
  /-- The active segment is brought to the medium. -/
  | sealed {record : Record} : machine.writer = .full record →
      Writes machine { machine with
        drive := (machine.log.syncActive.run machine.drive).2
        writer := .sealed record }
  /-- The range file takes in the next segment. -/
  | extended {record : Record} {range : SegmentRange} {drive : Drive} :
    machine.writer = .sealed record →
    machine.log.extend.run.run machine.drive = (.ok range, drive) →
      Writes machine { machine with drive, writer := .extended record range }
  /-- The range file could not be replaced, and the write has failed. -/
  | stuck {record : Record} {fault : Fault} {drive : Drive} : machine.writer = .sealed record →
    machine.log.extend.run.run machine.drive = (.error fault, drive) →
      Writes machine { machine with drive, writer := .idle }
  /-- The next segment is opened. -/
  | opened {record : Record} {range : SegmentRange} {log : ValueLog} {drive : Drive} :
    machine.writer = .extended record range →
    (machine.log.openNext range).run.run machine.drive = (.ok log, drive) →
      Writes machine { machine with log, drive, writer := .ready record }
  /-- The next segment could not be opened, and the write has failed. -/
  | refused {record : Record} {range : SegmentRange} {fault : Fault} {drive : Drive} :
    machine.writer = .extended record range →
    (machine.log.openNext range).run.run machine.drive = (.error fault, drive) →
      Writes machine { machine with drive, writer := .idle }
  /-- The record is written. -/
  | written {record : Record} {log : ValueLog} {address : UInt64} {drive : Drive} :
    machine.writer = .ready record →
    (machine.log.writeRecord record).run.run machine.drive = (.ok (log, address), drive) →
      Writes machine { machine with
        log, drive, writer := .written record.key address }
  /-- There is no address for the record, and the write has failed. -/
  | exhausted {record : Record} {fault : Fault} {drive : Drive} : machine.writer = .ready record →
    (machine.log.writeRecord record).run.run machine.drive = (.error fault, drive) →
      Writes machine { machine with drive, writer := .idle }
  /-- The line is written. -/
  | lined {key : Bytes} {address : UInt64} : machine.writer = .written key address →
      Writes machine { machine with
        drive := ((machine.log.writeLine key address).run machine.drive).2
        writer := .lined key address }
  /-- The binding is staged, and the active segment is free again. -/
  | staged {key : Bytes} {address : UInt64} : machine.writer = .lined key address →
      Writes machine { machine with log := machine.log.stage key address, writer := .idle }

/-- A step of a barrier. The next one begins when the last one has come to its end. -/
inductive Syncs (machine : Machine) : Machine → Prop
  /-- What is staged is taken. -/
  | taken : machine.round = .idle →
      Syncs machine { machine with
        log := machine.log.beginSync.2
        round := .taken machine.log.beginSync.1 }
  /-- The segment that is active then is brought to the medium, while no write has it. -/
  | waited {batch : AddressMap} : machine.round = .taken batch → machine.writer = .idle →
      Syncs machine { machine with
        drive := (machine.log.syncActive.run machine.drive).2
        round := .waited batch }
  /-- The index log is brought to the medium. -/
  | flushed {batch : AddressMap} : machine.round = .waited batch →
      Syncs machine { machine with
        drive := (machine.log.syncIndex.run machine.drive).2
        round := .flushed batch }
  /-- What was taken becomes visible. -/
  | published {batch : AddressMap} : machine.round = .flushed batch →
      Syncs machine { machine with log := machine.log.publish batch, round := .idle }

/-- A step of a write or of the barrier. -/
def Step (machine machine' : Machine) : Prop :=
  Writes machine machine' ∨ Syncs machine machine'

section Alone

variable (log : ValueLog) (drive : Drive) (round : Round)

/-- The steps from the write of a record on. -/
theorem writes_append (record : Record) :
    Relation.ReflTransGen Writes { start log drive with round, writer := .ready record }
      (match (log.append record).run.run drive with
        | (.error _, drive) => { start log drive with round }
        | (.ok log, drive) => { start log drive with round }) := by
  have hrun : (log.append record).run.run drive =
      match (log.writeRecord record).run.run drive with
      | (.error fault, drive) => (.error fault, drive)
      | (.ok (log, address), drive) =>
        (.ok (log.stage record.key address), ((log.writeLine record.key address).run drive).2) := by
    rw [append_eq]
    simp only [ExceptT.run_bind, StateT.run_bind]
    rcases (log.writeRecord record).run.run drive with ⟨_ | _, _⟩ <;> rfl
  rw [hrun]
  rcases hwritten : (log.writeRecord record).run.run drive with ⟨fault | ⟨log', address⟩, last⟩
  · exact .single (.exhausted rfl hwritten)
  · exact ((Relation.ReflTransGen.single (.written rfl hwritten)).tail (.lined rfl)).tail (.staged rfl)

/-- The steps of the change to the next segment. -/
theorem writes_rollOver (record : Record) :
    Relation.ReflTransGen Writes { start log drive with round, writer := .full record }
      (match log.rollOver.run.run drive with
        | (.error _, drive) => { start log drive with round }
        | (.ok log, drive) => { start log drive with round, writer := .ready record }) := by
  -- the change in three parts: the active segment is synced, the range is stored, the next segment is
  -- opened
  have hrun : log.rollOver.run.run drive =
      match log.extend.run.run (log.syncActive.run drive).2 with
      | (.error fault, drive) => (.error fault, drive)
      | (.ok range, drive) => (log.openNext range).run.run drive := by
    rw [rollOver_eq]
    show (log.extend >>= log.openNext).run.run (log.syncActive.run drive).2 = _
    simp only [ExceptT.run_bind, StateT.run_bind]
    rcases log.extend.run.run (log.syncActive.run drive).2 with ⟨_ | _, _⟩ <;> rfl
  rw [hrun]
  have hsealed : Writes { start log drive with round, writer := .full record } _ := .sealed rfl
  have hsealed := Relation.ReflTransGen.single hsealed
  rcases hextended : log.extend.run.run (log.syncActive.run drive).2 with ⟨fault | range, last⟩
  · exact hsealed.tail (.stuck rfl hextended)
  · have hextend := hsealed.tail (.extended rfl hextended)
    dsimp only
    rcases hopened : (log.openNext range).run.run last with ⟨fault | log', last'⟩
    · exact hextend.tail (.refused rfl hopened)
    · exact hextend.tail (.opened rfl hopened)

/-- A write that is carried out at a stretch takes these steps, however far the barrier has come. -/
theorem writes_put {key value : Bytes} (hsmall : Record.Small ⟨key, value⟩) :
    Relation.ReflTransGen Writes { start log drive with round }
      { start ((log.put key value).run drive).1.1 ((log.put key value).run drive).2 with round } := by
  let record : Record := ⟨key, value⟩
  have hcalled : Writes { start log drive with round }
      { start log drive with round, waiting := [record] } :=
    .called hsmall
  -- the write that was called is the only one that waits
  have hlocked : Writes { start log drive with round, waiting := [record] }
      { start log drive with
        round
        writer := if log.isFull record.length then .full record else .ready record } :=
    @Writes.locked _ [] [] record rfl rfl
  have hbegun := (Relation.ReflTransGen.single hcalled).tail hlocked
  rw [run_put, makeRoom]
  split at hbegun
  · rename_i hfull
    have hrolled := hbegun.trans (writes_rollOver log drive round record)
    rw [if_pos hfull]
    rcases hrun : log.rollOver.run.run drive with ⟨_ | log', last⟩ <;> rw [hrun] at hrolled
    · exact hrolled
    · have hall := hrolled.trans (writes_append log' last round record)
      dsimp only
      rcases hrun : (log'.append record).run.run last with ⟨_ | _, _⟩ <;> rw [hrun] at hall <;> exact hall
  · rename_i hroom
    have hall := hbegun.trans (writes_append log drive round record)
    have hpure : (pure log : DiskM ValueLog).run.run drive = (.ok log, drive) := rfl
    rw [if_neg hroom, hpure]
    dsimp only
    rcases hrun : (log.append record).run.run drive with ⟨_ | _, _⟩ <;> rw [hrun] at hall <;> exact hall

/-- A barrier that is carried out at a stretch takes these steps. -/
theorem syncs_sync :
    Relation.ReflTransGen Syncs (start log drive) (start (log.sync.run drive).1 (log.sync.run drive).2) :=
  (((Relation.ReflTransGen.single (Syncs.taken rfl)).tail (.waited rfl rfl)).tail (.flushed rfl)).tail
    (.published rfl)

end Alone

/-- Every visible binding has its record and its line on the medium: the whole record lies in the part of
its segment that has reached it, and the line is one of those in the part of the index log that has. -/
structure Durable (config : Config) (machine : Machine) : Prop where
  exists_record {key : Bytes} {address : UInt64} : machine.log.index.applied[key]? = some address →
    ∃ position file record, Position.ofAddress? address config.capacity = some position ∧
      machine.drive.disk.nodeAt (config.segmentFile position.segment) = .ok (.file file) ∧
      (machine.drive.disk.contents file).recordAt? position.offset = some record ∧ record.key = key ∧
      position.offset + record.length ≤ (machine.drive.disk.file file).durable
  exists_line {key : Bytes} {address : UInt64} : machine.log.index.applied[key]? = some address →
    ∃ file, machine.drive.disk.node? config.indexLog.place = some (.file file) ∧ (key, address) ∈
      IndexLog.entries ((machine.drive.disk.contents file).toBytes.take (machine.drive.disk.file file).durable)

end Machine

end ValueLog

/-! ## What is bound -/

/-- All bindings of a map are such. -/
def Binds (P : Bytes → UInt64 → Prop) (map : AddressMap) : Prop :=
  ∀ key address, map[key]? = some address → P key address

section Binds

variable {P Q : Bytes → UInt64 → Prop} {map map' : AddressMap}

/-- What all bindings are, they are in a weaker way. -/
theorem Binds.imp (h : Binds P map) (himp : ∀ key address, P key address → Q key address) :
    Binds Q map :=
  fun key address hbinding => himp key address (h key address hbinding)

theorem binds_empty : Binds P ∅ := by
  intro key address hbinding
  rw [Std.ExtTreeMap.getElem?_empty] at hbinding
  cases hbinding

/-- A new binding has to be such, too. -/
theorem Binds.insert (h : Binds P map) {key : Bytes} {address : UInt64} (hnew : P key address) :
    Binds P (map.insert key address) := by
  intro other found hbinding
  rw [Std.ExtTreeMap.getElem?_insert] at hbinding
  split at hbinding
  · rename_i hsame
    obtain rfl := Std.compare_eq_iff_eq.mp hsame
    obtain rfl := Option.some.inj hbinding
    exact hnew
  · exact h other found hbinding

/-- A binding of two maps is one of the second or one of the first. -/
theorem Binds.union (h : Binds P map) (h' : Binds P map') : Binds P (map ∪ map') := by
  intro key address hbinding
  rw [Std.ExtTreeMap.getElem?_union] at hbinding
  cases hnew : map'[key]? with
  | some found =>
    rw [hnew] at hbinding
    exact h' key address (hnew.trans hbinding)
  | none =>
    rw [hnew] at hbinding
    exact h key address hbinding

end Binds

namespace Config

/-- The binding has its line among these, and a record of its key in a segment. -/
def Lined (config : Config) (last : UInt64) (disk : Disk) (lines : List (Bytes × UInt64)) (key : Bytes)
    (address : UInt64) : Prop :=
  (key, address) ∈ lines ∧ ∃ record, record.key = key ∧ config.Backed last disk address record

/-- The binding has its line among these, and a record of its key on the medium. -/
def Shown (config : Config) (last : UInt64) (disk : Disk) (lines : List (Bytes × UInt64)) (key : Bytes)
    (address : UInt64) : Prop :=
  (key, address) ∈ lines ∧ ∃ record, record.key = key ∧ config.Covered last disk address record

variable {config : Config} {last last' : UInt64} {start disk : Disk}
  {lines lines' : List (Bytes × UInt64)} {key : Bytes} {address : UInt64}

/-- A line that was written stays. -/
theorem Lined.carry (h : config.Lined last start lines key address)
    (hcarries : config.Carries last start last' disk) (hlines : lines ⊆ lines') :
    config.Lined last' disk lines' key address := by
  obtain ⟨hmem, record, hkey, hbacked⟩ := h
  exact ⟨hlines hmem, record, hkey, hcarries.backed hbacked⟩

/-- A record on the medium stays there. -/
theorem Shown.carry (h : config.Shown last start lines key address)
    (hcarries : config.Carries last start last' disk) (hlines : lines ⊆ lines') :
    config.Shown last' disk lines' key address := by
  obtain ⟨hmem, record, hkey, hcovered⟩ := h
  exact ⟨hlines hmem, record, hkey, hcarries.covered hcovered⟩

/-- Where the last segment has reached the medium, so have the records of all bindings. -/
theorem Lined.shown (h : config.Lined last disk lines key address)
    (hfirm : disk.Firm (config.place (.segment last))) : config.Shown last disk lines key address := by
  obtain ⟨hmem, record, hkey, hbacked⟩ := h
  exact ⟨hmem, record, hkey, hbacked.covered hfirm⟩

end Config

namespace ValueLog

/-! ## What every step keeps -/

variable {config : Config} {log log' : ValueLog} {disk disk' : Disk}
  {front front' lines lines' : List (Bytes × UInt64)}

/-- What is true where a write has come so far. -/
def Writer.Kept (config : Config) (log : ValueLog) (disk : Disk) (lines : List (Bytes × UInt64)) :
    Writer → Prop
  | idle => True
  | full record => record.Small
  | sealed record => record.Small ∧ disk.Firm (config.place (.segment log.active.id))
  | extended record range => record.Small ∧ disk.Firm (config.place (.segment log.active.id)) ∧
      log.range.next < range.next
  | ready record => record.Small ∧ log.active.length < config.capacity.toNat
  | written key address => ∃ record, record.key = key ∧
      config.Backed log.active.id disk address record
  | lined key address => config.Lined log.active.id disk lines key address

/-- What is true where a barrier has come so far: it is the bindings that it has taken whose records, and
then whose lines, reach the medium. -/
def Round.Kept (config : Config) (last : UInt64) (disk : Disk) (front lines : List (Bytes × UInt64)) :
    Round → Prop
  | idle => True
  | taken batch => Binds (config.Lined last disk lines) batch
  | waited batch => Binds (config.Shown last disk lines) batch
  | flushed batch => Binds (config.Shown last disk front) batch

/-- A write is where it was when only the index log changes its state. -/
theorem Writer.Kept.flush {writer : Writer} (h : writer.Kept config log disk lines)
    (hcarries : config.Carries log.active.id disk log.active.id disk')
    (hfirm : ∀ place, disk.Firm place → disk'.Firm place) (hlines : lines ⊆ lines') :
    writer.Kept config log disk' lines' := by
  cases writer with
  | idle | full | ready => exact h
  | sealed => exact ⟨h.1, hfirm _ h.2⟩
  | extended => exact ⟨h.1, hfirm _ h.2.1, h.2.2⟩
  | written =>
    obtain ⟨record, hkey, hbacked⟩ := h
    exact ⟨record, hkey, hcarries.backed hbacked⟩
  | lined => exact Config.Lined.carry h hcarries hlines

/-- A write does not depend on what is bound. -/
theorem Writer.Kept.congr {writer : Writer} (h : writer.Kept config log disk lines)
    (hactive : log'.active = log.active) (hrange : log'.range = log.range) :
    writer.Kept config log' disk lines := by
  cases writer <;> simp only [Writer.Kept, hactive, hrange] at h ⊢ <;> exact h

/-- A barrier is where it was when a write takes a step. -/
theorem Round.Kept.carry {round : Round} {last last' : UInt64}
    (h : round.Kept config last disk front lines) (hcarries : config.Carries last disk last' disk')
    (hlines : lines ⊆ lines') : round.Kept config last' disk' front lines' := by
  cases round with
  | idle => trivial
  | taken => exact Binds.imp h fun _ _ hlined => hlined.carry hcarries hlines
  | waited => exact Binds.imp h fun _ _ hshown => hshown.carry hcarries hlines
  | flushed => exact Binds.imp h fun _ _ hshown => hshown.carry hcarries (List.Subset.refl _)

namespace Machine

/-- What every step keeps. The index log has the lines of `front`, which have reached the medium, and then
those of `rest`. -/
structure Kept (config : Config) (machine : Machine) (front rest : List (Bytes × UInt64)) : Prop where
  anchored : machine.log.Anchored config machine.drive.disk (front ++ rest)
  front_le : (IndexLog.encodeEntries front).length ≤ machine.drive.disk.durableAt (config.place .index)
  waiting {record : Record} : record ∈ machine.waiting → record.Small
  applied : Binds (config.Shown machine.log.active.id machine.drive.disk front) machine.log.index.applied
  staged : Binds (config.Lined machine.log.active.id machine.drive.disk (front ++ rest))
    machine.log.index.staged
  writer : machine.writer.Kept config machine.log machine.drive.disk (front ++ rest)
  round : machine.round.Kept config machine.log.active.id machine.drive.disk front (front ++ rest)

variable {machine machine' : Machine} {rest rest' : List (Bytes × UInt64)}

namespace Kept

/-- A write that takes a step on the disk keeps all bindings. -/
theorem move (h : Kept config machine front rest) {drive : Drive} {writer : Writer}
    (hanchored : log'.Anchored config drive.disk (front ++ rest'))
    (hcarries : config.Carries machine.log.active.id machine.drive.disk log'.active.id drive.disk)
    (hindex : log'.index = machine.log.index) (hrest : rest ⊆ rest')
    (hwriter : writer.Kept config log' drive.disk (front ++ rest')) :
    Kept config { machine with log := log', drive, writer } front rest' := by
  have hlines : front ++ rest ⊆ front ++ rest' := List.append_subset.mpr
    ⟨List.subset_append_left _ _, fun _ hmem => List.mem_append_right _ (hrest hmem)⟩
  have happlied := h.applied.imp fun _ _ hshown => hshown.carry hcarries (List.Subset.refl _)
  have hstaged := h.staged.imp fun _ _ hlined => hlined.carry hcarries hlines
  rw [← hindex] at happlied hstaged
  exact {
    anchored := hanchored
    front_le := Nat.le_trans h.front_le hcarries.index_le
    waiting := h.waiting
    applied := happlied
    staged := hstaged
    writer := hwriter
    round := h.round.carry hcarries hlines }

/-- So does one that fails without a trace. -/
theorem fail (h : Kept config machine front rest) {drive : Drive}
    (hdisk : machine.drive.disk = drive.disk) :
    Kept config { machine with drive, writer := .idle } front rest := by
  have hcarries : config.Carries machine.log.active.id machine.drive.disk machine.log.active.id
      machine.drive.disk := .refl h.anchored.wellFormed
  exact h.move (hdisk ▸ h.anchored) (hdisk ▸ hcarries) rfl (List.Subset.refl _) trivial

/-- A step of a write keeps everything. -/
theorem writes (h : Kept config machine front rest) (hseparate : config.Separate)
    (hstep : Writes machine machine') : ∃ rest', Kept config machine' front rest' := by
  have hsame : rest ⊆ rest := (List.Subset.refl _)
  have hwriter := h.writer
  cases hstep with
  | called hsmall =>
    refine ⟨rest, { h with waiting := fun hmem => ?_ }⟩
    rcases List.mem_append.mp hmem with hmem | hmem
    · exact h.waiting hmem
    · exact List.mem_singleton.mp hmem ▸ hsmall
  | @locked before behind record hidle hwaiting =>
    have hmem : ∀ {other}, other ∈ before ++ behind → other ∈ machine.waiting := by
      intro other hmem
      rw [hwaiting]
      grind
    have hsmall : record.Small := h.waiting (by simp [hwaiting])
    refine ⟨rest, { h with waiting := fun hother => h.waiting (hmem hother), writer := ?_ }⟩
    dsimp only
    split
    · exact hsmall
    · rename_i hroom
      exact ⟨hsmall, h.anchored.below hroom record.length_pos⟩
  | sealed hphase =>
    rw [hphase] at hwriter
    obtain ⟨hanchored, hcarries, hfirm⟩ := h.anchored.syncActive.after_run
    exact ⟨rest, h.move hanchored hcarries rfl hsame ⟨hwriter, hfirm⟩⟩
  -- what a step leaves is what the next one needs: the segment is still on the medium
  | extended hphase hrun =>
    rw [hphase] at hwriter
    have hafter := (h.anchored.extend hseparate).after_run
    rw [hrun] at hafter
    obtain ⟨hanchored, hcarries, hnext, hfirm⟩ := hafter
    exact ⟨rest, h.move hanchored hcarries rfl hsame ⟨hwriter.1, hfirm hwriter.2, hnext⟩⟩
  | stuck hphase hrun =>
    have hafter := (h.anchored.extend hseparate).after_run
    rw [hrun] at hafter
    exact ⟨rest, h.move hafter.1 hafter.2 rfl hsame trivial⟩
  -- the old segment may be left behind because it was brought to the medium before
  | opened hphase hrun =>
    rw [hphase] at hwriter
    obtain ⟨hsmall, hfirm, hnext⟩ := hwriter
    have hafter := (h.anchored.openNext hseparate hfirm hnext).after_run
    rw [hrun] at hafter
    obtain ⟨hanchored, hcarries, hindex, hempty⟩ := hafter
    have hpos := Position.capacity_pos h.anchored.capacity_ne
    exact ⟨rest, h.move hanchored hcarries hindex hsame ⟨hsmall, by omega⟩⟩
  | refused hphase hrun =>
    rw [hphase] at hwriter
    have hafter := (h.anchored.openNext hseparate hwriter.2.1 hwriter.2.2).after_run
    rw [hrun] at hafter
    exact ⟨rest, h.fail hafter⟩
  | written hphase hrun =>
    rw [hphase] at hwriter
    have hafter := (h.anchored.writeRecord hseparate hwriter.1 hwriter.2).after_run
    rw [hrun] at hafter
    obtain ⟨hanchored, hcarries, hindex, hbacked⟩ := hafter
    exact ⟨rest, h.move hanchored hcarries hindex hsame ⟨_, rfl, hbacked⟩⟩
  | exhausted hphase hrun =>
    rw [hphase] at hwriter
    have hafter := (h.anchored.writeRecord hseparate hwriter.1 hwriter.2).after_run
    rw [hrun] at hafter
    exact ⟨rest, h.fail hafter⟩
  | @lined key address hphase =>
    rw [hphase] at hwriter
    obtain ⟨record, hkey, hbacked⟩ := hwriter
    obtain ⟨hanchored, hcarries⟩ := (h.anchored.writeLine hseparate key address).after_run
    rw [List.append_assoc] at hanchored
    refine ⟨_, h.move hanchored hcarries rfl (List.subset_append_left _ _) ⟨?_, record, hkey,
      hcarries.backed hbacked⟩⟩
    simp
  | staged hphase =>
    rw [hphase] at hwriter
    exact ⟨rest, { h with
      anchored := h.anchored.congr
      staged := h.staged.insert hwriter
      writer := trivial }⟩

/-- A step of a barrier keeps everything. -/
theorem syncs (h : Kept config machine front rest) (hstep : Syncs machine machine') :
    ∃ front' rest', Kept config machine' front' rest' := by
  have hround := h.round
  cases hstep with
  -- a write that has not staged its line yet falls to the next barrier
  | taken hphase =>
    exact ⟨front, rest, { h with
      anchored := h.anchored.congr
      staged := binds_empty
      writer := h.writer.congr rfl rfl
      round := h.staged }⟩
  | @waited batch hphase hidle =>
    rw [hphase] at hround
    obtain ⟨hanchored, hcarries, hfirm⟩ := h.anchored.syncActive.after_run
    have hwriter (disk : Disk) : machine.writer.Kept config machine.log disk (front ++ rest) := by
      rw [hidle]
      trivial
    have hkept := h.move hanchored hcarries rfl (List.Subset.refl _) (hwriter _)
    -- the records of the batch are in the active segment, or in sealed ones
    have hbatch : Binds (config.Shown machine.log.active.id _ (front ++ rest)) batch :=
      Binds.imp hround fun _ _ hlined => (hlined.carry hcarries fun _ hmem => hmem).shown hfirm
    exact ⟨front, rest, { hkept with round := hbatch }⟩
  | @flushed batch hphase =>
    rw [hphase] at hround
    obtain ⟨hanchored, hcarries, hfirm, hother⟩ := h.anchored.syncIndex.after_run
    have hsame : ∀ lines : List (Bytes × UInt64), lines ⊆ lines := fun _ _ hmem => hmem
    have hkept := h.move hanchored hcarries rfl (hsame _) (h.writer.flush hcarries hother (hsame _))
    have hle := hfirm _ (Disk.bytesAt_of_leaf hanchored.index_leaf)
    -- all lines have reached the medium by now
    refine ⟨front ++ rest, [], { hkept with
      anchored := ?_
      front_le := hle
      applied := hkept.applied.imp fun _ _ hshown => ⟨List.mem_append_left _ hshown.1, hshown.2⟩
      staged := ?_
      writer := ?_
      round := Binds.imp hround fun _ _ hshown => hshown.carry hcarries (hsame _) }⟩
    · rw [List.append_nil]
      exact hkept.anchored
    · rw [List.append_nil]
      exact hkept.staged
    · rw [List.append_nil]
      exact hkept.writer
  | published hphase =>
    rw [hphase] at hround
    exact ⟨front, rest, { h with
      anchored := h.anchored.congr
      applied := h.applied.union hround
      writer := h.writer.congr rfl rfl
      round := trivial }⟩

/-- What every step keeps says that the visible bindings are on the medium. -/
theorem durable (h : Kept config machine front rest) : machine.Durable config where
  exists_record {key address} hbinding := by
    obtain ⟨-, record, hkey, position, hstands, hsafe⟩ := h.applied key address hbinding
    obtain ⟨file, hnode, hfile, hrecord⟩ := hstands.exists_file h.anchored.reaches
    refine ⟨position, file, record, hstands.position_eq, hnode, hrecord, hkey, ?_⟩
    rw [Config.Safe, Disk.durableAt_of_file hfile] at hsafe
    omega
  exists_line {key address} hbinding := by
    obtain ⟨hfile, hbytes⟩ := Disk.leaf_eq_some_iff.mp h.anchored.index_leaf
    have hle := h.front_le
    rw [Disk.durableAt_of_file hfile] at hle
    refine ⟨_, hfile, ?_⟩
    rw [hbytes]
    -- the lines in front of the cut are found
    obtain ⟨count, hentries, hfront⟩ := IndexLog.entries_take (front ++ rest)
      (machine.drive.disk.file machine.log.index.log).durable
    have hcount := (hfront front rest rfl).mp (by omega)
    rw [hentries, List.take_append, List.take_of_length_le hcount]
    exact List.mem_append_left _ (h.applied key address hbinding).1

end Kept

/-- What is visible is on the medium, in whatever order the steps of writes and barriers come behind an
opening. -/
theorem durable_of_reachable {start last : Drive} (hwell : start.disk.WellFormed)
    (hseparate : config.Separate) {report : Recovery}
    (hopen : (openAt config).run.run start = (.ok (log, report), last))
    (hsteps : Relation.ReflTransGen Step (.start log last) machine) : machine.Durable config := by
  have hafter := (anchored_openAt hwell hseparate).after_run
  rw [hopen] at hafter
  obtain ⟨lines, hanchored, hfirm, hstaged, happlied⟩ := hafter
  have hkept : ∃ front rest, Kept config machine front rest := by
    -- by induction on the steps; `front` grows only where the index log is flushed
    induction hsteps with
    | refl =>
      have hlines := hfirm _ (Disk.bytesAt_of_leaf hanchored.index_leaf)
      rw [← List.append_nil lines] at hanchored
      exact ⟨lines, [], {
        anchored := hanchored
        front_le := hlines
        waiting := nofun
        applied := happlied
        staged := hstaged ▸ binds_empty
        writer := trivial
        round := trivial }⟩
    | tail _ hstep ih =>
      obtain ⟨front, rest, hkept⟩ := ih
      rcases hstep with hwrites | hsyncs
      · exact ⟨front, hkept.writes hseparate hwrites⟩
      · exact hkept.syncs hsyncs
  obtain ⟨front, rest, hkept⟩ := hkept
  exact hkept.durable

/-- A barrier takes what is staged, and a write of another key goes on to the next segment. The barrier
waits for that one, a third write comes as far as the end of it, and the barrier publishes what it took. -/
theorem durable_interleaved : ∃ log report last machine,
    (openAt Config.narrow).run.run (ofDisk Disk.fresh) = (.ok (log, report), last) ∧
      Relation.ReflTransGen Step (.start log last) machine ∧ machine.writer = .sealed ⟨[3], [30]⟩ ∧
      machine.log.active.id = 1 ∧ machine.log.index.applied[([1] : Bytes)]? = some 0 ∧
      machine.log.index.staged[([2] : Bytes)]? = some 40 ∧ machine.Durable Config.narrow := by
  have hruns : ∃ opened last, (openAt Config.narrow).run.run (ofDisk Disk.fresh) = (.ok opened, last) ∧
      ∃ (log₁ : ValueLog) (drive₁ : Drive), (opened.1.put [1] [10]).run last = ((log₁, .ok ()), drive₁) ∧
      ∃ (log₂ : ValueLog) (drive₂ : Drive),
        (log₁.beginSync.2.put [2] (List.replicate 10 20)).run drive₁ = ((log₂, .ok ()), drive₂) ∧
        log₂.isFull (Record.length ⟨[3], [30]⟩) = true ∧ log₂.active.id = 1 ∧
        (log₂.publish log₁.beginSync.1).index.applied[([1] : Bytes)]? = some 0 ∧
        (log₂.publish log₁.beginSync.1).index.staged[([2] : Bytes)]? = some 40 := by
    decide +kernel
  obtain ⟨⟨log, report⟩, last, hopen, log₁, drive₁, hfirst, log₂, drive₂, hsecond, hfull, hactive,
    happlied, hstaged⟩ := hruns
  dsimp only at hfirst
  have hwrites : Writes ≤ Step := fun _ _ => Or.inl
  have hput := Relation.ReflTransGen.mono hwrites _ _
    (writes_put log last .idle (show Record.Small ⟨[1], [10]⟩ by decide))
  rw [hfirst] at hput
  have htaken := hput.tail (.inr (.taken rfl))
  -- the second write finds the barrier half-way
  have hrolled := Relation.ReflTransGen.mono hwrites _ _ (writes_put log₁.beginSync.2 drive₁
    (.taken log₁.beginSync.1) (show Record.Small ⟨[2], List.replicate 10 20⟩ by decide))
  rw [hsecond] at hrolled
  have hwaited := (htaken.trans hrolled).tail (.inr (.waited rfl rfl))
  have hcalled := hwaited.tail (.inl (.called (show Record.Small ⟨[3], [30]⟩ by decide)))
  have hlocked := hcalled.tail (.inl (@Writes.locked _ [] [] _ rfl rfl))
  have hsealed := hlocked.tail (.inl (.sealed (if_pos hfull)))
  have hsteps := (hsealed.tail (.inr (.flushed rfl))).tail (.inr (.published rfl))
  exact ⟨log, report, last, _, hopen, hsteps, rfl, hactive, happlied, hstaged,
    durable_of_reachable Disk.wellFormed_fresh (Config.separate_withDirectory _ _) hopen hsteps⟩

end Machine

end ValueLog

end BarrierStore
