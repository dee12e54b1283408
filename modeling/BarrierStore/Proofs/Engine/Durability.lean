import BarrierStore.Proofs.Engine.Tally
import BarrierStore.Proofs.ValueLog.Loss

/-!
# What a barrier covers

A crash of the machine may lose the ends of files: of the active segment and of both index logs, each
at a byte of its own. What was visible at the last barrier is not lost by it. A key may have a value
that was put since, if that one happens to be on the medium already.

The module introduces:

* `Barrier` — how far the files were written at a barrier, what was visible then, and what was put
  since;
* `Engine.Cut` — what a crash leaves that loses nothing in front of a barrier;
* `Engine.Lives` — an engine and its disk after any run, over any number of sessions, with the last
  barrier.

Main statement: `Engine.lookups_of_cut`.
-/

namespace BarrierStore

open Drive

/-- How far the files were written at a barrier, what was visible then, and what was put since. -/
structure Barrier where
  /-- The active segment. -/
  segment : UInt64
  /-- The bytes in the active segment. -/
  segmentLength : Nat
  /-- The bytes in the index log. -/
  indexLength : Nat
  /-- The bytes in the number log. -/
  numbersLength : Nat
  /-- What a lookup of a value gave. -/
  value : Bytes → Except Fault (Option Bytes)
  /-- What a lookup of a number gave. -/
  number : Bytes → Option UInt64
  /-- The values that were put since. -/
  values : List (Bytes × Bytes)
  /-- The numbers that were put since. -/
  numbers : List (Bytes × UInt64)

namespace Barrier

/-- A barrier that has just been completed. -/
def now (engine : Engine) (disk : Disk) : Barrier where
  segment := engine.log.active.id
  segmentLength := (disk.contents engine.log.active.file).length
  indexLength := (disk.contents engine.log.index.log).length
  numbersLength := (disk.contents engine.numbers.log).length
  value := engine.get disk
  number := engine.getNumber
  values := []
  numbers := []

/-- A value is put. -/
def put (barrier : Barrier) (key value : Bytes) : Barrier :=
  { barrier with values := barrier.values ++ [(key, value)] }

/-- A number is put. -/
def putNumber (barrier : Barrier) (key : Bytes) (number : UInt64) : Barrier :=
  { barrier with numbers := barrier.numbers ++ [(key, number)] }

/-- An entry is written. -/
def write (barrier : Barrier) : Entry → Barrier
  | .put key value => barrier.put key value
  | .putNumber key number => barrier.putNumber key number

end Barrier

namespace Engine

/-- What a crash leaves that cuts off the active segment and both index logs, but nothing that was
written before the barrier. -/
inductive Cut (engine : Engine) (disk : Disk) (barrier : Barrier) : Disk → Prop
  /-- These are the lengths that are left. A segment that was not active at the barrier may lose all. -/
  | ends {segment lines numbers : Nat}
    (hsegment : engine.log.active.id = barrier.segment → barrier.segmentLength ≤ segment)
    (hlines : barrier.indexLength ≤ lines) (hnumbers : barrier.numbersLength ≤ numbers)
    (hsegment' : segment ≤ (disk.contents engine.log.active.file).length)
    (hlines' : lines ≤ (disk.contents engine.log.index.log).length)
    (hnumbers' : numbers ≤ (disk.contents engine.numbers.log).length) :
    Cut engine disk barrier (disk.applyAll [.resize engine.log.active.file segment,
      .resize engine.log.index.log lines, .resize engine.numbers.log numbers])

/-- An engine, its drive and the last barrier after a run in which no operation has failed. The store
was opened on `start` first; an opening completes a barrier. -/
inductive Lives (config : Config) (start : Disk) : Engine → Drive → Barrier → Prop
  /-- The first session begins. -/
  | opened {engine : Engine} {drive : Drive} :
    (Engine.openWith config).run.run (ofDisk start) = (.ok engine, drive) →
      Lives config start engine drive (.now engine drive.disk)
  /-- A value is put. -/
  | put {engine engine' : Engine} {drive drive' : Drive} {barrier : Barrier} {key value : Bytes} :
    Lives config start engine drive barrier → Record.Small ⟨key, value⟩ →
    (engine.put key value).run drive = ((engine', .ok ()), drive') →
      Lives config start engine' drive' (barrier.put key value)
  /-- A number is put. -/
  | putNumber {engine engine' : Engine} {drive drive' : Drive} {barrier : Barrier} {key : Bytes}
    {number : UInt64} : Lives config start engine drive barrier →
    (engine.putNumber key number).run drive = (engine', drive') →
      Lives config start engine' drive' (barrier.putNumber key number)
  /-- A barrier is completed. -/
  | sync {engine engine' : Engine} {drive drive' : Drive} {barrier : Barrier} :
    Lives config start engine drive barrier → engine.sync.run drive = (engine', drive') →
      Lives config start engine' drive' (.now engine' drive'.disk)
  /-- The session is closed, and another one begins. -/
  | closed {engine engine' : Engine} {drive drive' drive'' : Drive} {barrier : Barrier} :
    Lives config start engine drive barrier → engine.close.run.run drive = (.ok (), drive') →
    (Engine.openWith config).run.run drive' = (.ok engine', drive'') →
      Lives config start engine' drive'' (.now engine' drive''.disk)
  /-- The session ends in a crash, and another one begins. -/
  | crashed {engine engine' : Engine} {drive drive' : Drive} {barrier : Barrier} {left : Disk} :
    Lives config start engine drive barrier → Cut engine drive.disk barrier left →
    (Engine.openWith config).run.run (ofDisk left) = (.ok engine', drive') →
      Lives config start engine' drive' (.now engine' drive'.disk)

end Engine

/-! ## What is covered -/

/-- The barrier covers the visible records and numbers of an open engine, and nothing else was written
in front of it. -/
structure Barrier.Covers (barrier : Barrier) (config : Config) (engine : Engine)
    (base : List (Bytes × UInt64)) (applied staged : Found)
    (counted pending : List (Bytes × UInt64)) : Prop where
  segment_le : barrier.segment ≤ engine.log.active.id
  ends (entry : Nat × Record) : entry ∈ applied →
    config.EndsBefore barrier.segment barrier.segmentLength entry
  indexLength_eq : barrier.indexLength = (IndexLog.encodeEntries (base ++ applied.lines)).length
  numbersLength_eq : barrier.numbersLength = (IndexLog.encodeEntries counted).length
  value_eq (key : Bytes) : barrier.value key = .ok (latest applied.bindings key)
  number_eq (key : Bytes) : barrier.number key = latest counted key
  values_eq : barrier.values = staged.bindings
  numbers_eq : barrier.numbers = pending

namespace Engine.Holds

variable {config : Config} {engine engine' : Engine} {start left : Disk} {origin : UInt64}
  {base : List (Bytes × UInt64)} {applied staged : Found} {counted pending : List (Bytes × UInt64)}
  {barrier : Barrier}

/-- A barrier covers what is visible after it. -/
theorem covers_now (h : Holds config engine start origin base applied [] counted []) :
    (Barrier.now engine start).Covers config engine base applied [] counted [] where
  segment_le := UInt64.le_refl _
  ends entry hentry := by
    obtain ⟨bytes, hleaf, hlength, -⟩ := h.log.active_leaf
    have hends := h.log.endsBefore (List.mem_append_left _ hentry)
    rwa [← hlength, ← Disk.length_contents_of_leaf hleaf] at hends
  indexLength_eq := by
    rw [← List.append_nil applied]
    exact Disk.length_contents_of_leaf h.log.index_leaf
  numbersLength_eq := by
    rw [← List.append_nil counted]
    exact Disk.length_contents_of_leaf h.numbers.leaf_eq
  value_eq := h.get_eq
  number_eq := h.getNumber_eq
  values_eq := rfl
  numbers_eq := rfl

/-- A value that is put behind the barrier leaves what the barrier covers. -/
theorem covers_put
    (h : barrier.Covers config engine base applied staged counted pending)
    (hle : engine.log.active.id ≤ engine'.log.active.id) (address : Nat) (key value : Bytes) :
    (barrier.put key value).Covers config engine' base applied (staged ++ [(address, ⟨key, value⟩)])
      counted pending :=
  { h with
    segment_le := UInt64.le_trans h.segment_le hle
    values_eq := by
      rw [Barrier.put, h.values_eq, Found.bindings_append]
      rfl }

/-- So does a number. -/
theorem covers_putNumber
    (h : barrier.Covers config engine base applied staged counted pending)
    (hlog : engine'.log = engine.log) (key : Bytes) (number : UInt64) :
    (barrier.putNumber key number).Covers config engine' base applied staged counted
      (pending ++ [(key, number)]) :=
  { h with
    segment_le := hlog ▸ h.segment_le
    numbers_eq := by rw [Barrier.putNumber, h.numbers_eq] }

/-- The active segment of a log never comes before an earlier one. -/
theorem active_le (h : Holds config engine start origin base applied staged counted pending)
    {disk : Disk} {staged' : Found}
    (h' : Holds config engine' disk origin base applied staged' counted pending)
    (hle : engine.log.range.next ≤ engine'.log.range.next) :
    engine.log.active.id ≤ engine'.log.active.id := by
  rw [UInt64.le_iff_toNat_le, h.log.next_eq, h'.log.next_eq] at hle
  rw [UInt64.le_iff_toNat_le]
  omega

/-! ## The crash -/

/-- The places of the files that a crash cuts off. -/
def cutPlaces (config : Config) (engine : Engine) : Set Location :=
  {config.place (.segment engine.log.active.id), config.place .index, config.numberLog.place}

/-- A crash cuts off three files and leaves the others as they are. -/
theorem exists_cut (h : Holds config engine start origin base applied staged counted pending)
    (hcut : Cut engine start barrier left) (hseparate : config.Separate) (hapart : config.Apart) :
    ∃ segment lines numbers,
      (engine.log.active.id = barrier.segment → barrier.segmentLength ≤ segment) ∧
      barrier.indexLength ≤ lines ∧ barrier.numbersLength ≤ numbers ∧
      start.Changes (cutPlaces config engine) left ∧
      config.fileBytes left (.segment engine.log.active.id) =
        (config.fileBytes start (.segment engine.log.active.id)).map (List.take segment) ∧
      config.fileBytes left .index = (config.fileBytes start .index).map (List.take lines) ∧
      left.bytesAt config.numberLog.place =
        (start.bytesAt config.numberLog.place).map (List.take numbers) := by
  cases hcut with
  | @ends segment lines numbers hsegment hlines hnumbers hsegment' hlines' hnumbers' =>
    obtain ⟨bytes, hsegmentLeaf, -, -⟩ := h.log.active_leaf
    have hindexLeaf := h.log.index_leaf
    have hnumberLeaf := h.numbers.leaf_eq
    rw [h.path_eq] at hnumberLeaf
    rw [Disk.length_contents_of_leaf hsegmentLeaf] at hsegment'
    rw [Disk.length_contents_of_leaf hindexLeaf] at hlines'
    rw [Disk.length_contents_of_leaf hnumberLeaf] at hnumbers'
    -- the three files have names of their own, so each cut leaves the other two as they are
    have hindex : config.place .index ≠ config.place (.segment engine.log.active.id) :=
      hseparate.place_ne (by simp)
    have hnumber : ∀ file, config.numberLog.place ≠ config.place file :=
      fun file hsame => hapart.numberLog (hsame ▸ Config.place_mem_ownPlaces file)
    obtain ⟨hfirst, hsegmentCut⟩ := Disk.changes_truncate h.log.wellFormed hsegmentLeaf hsegment'
    obtain ⟨hsecond, hindexCut⟩ := Disk.changes_truncate hfirst.wellFormed
      ((hfirst.leaf_eq hindex).trans hindexLeaf) hlines'
    obtain ⟨hthird, hnumberCut⟩ := Disk.changes_truncate hsecond.wellFormed
      ((hsecond.leaf_eq (hnumber _)).trans ((hfirst.leaf_eq (hnumber _)).trans hnumberLeaf)) hnumbers'
    have hsegmentLast := (hthird.leaf_eq (hnumber _).symm).trans
      ((hsecond.leaf_eq hindex.symm).trans hsegmentCut)
    have hindexLast := (hthird.leaf_eq (hnumber _).symm).trans hindexCut
    refine ⟨segment, lines, numbers, hsegment, hlines, hnumbers,
      ((hfirst.mono ?_).trans (hsecond.mono ?_)).trans (hthird.mono ?_), ?_, ?_, ?_⟩
    · exact Set.singleton_subset_iff.mpr (.inl rfl)
    · exact Set.singleton_subset_iff.mpr (.inr (.inl rfl))
    · exact Set.singleton_subset_iff.mpr (.inr (.inr rfl))
    · rw [Config.fileBytes, Disk.bytesAt, Config.fileBytes, Disk.bytesAt, hsegmentLeaf]
      exact Disk.bytesAt_of_leaf hsegmentLast
    · rw [Config.fileBytes, Disk.bytesAt, Config.fileBytes, Disk.bytesAt, hindexLeaf]
      exact Disk.bytesAt_of_leaf hindexLast
    · rw [Disk.bytesAt, Disk.bytesAt, hnumberLeaf]
      exact Disk.bytesAt_of_leaf hnumberCut

/-- A crash behind a barrier leaves a store, in which what the barrier covers survives. -/
theorem stored_cut (h : Holds config engine start origin base applied staged counted pending)
    (hcovers : barrier.Covers config engine base applied staged counted pending)
    (hcut : Cut engine start barrier left) (hseparate : config.Separate) (hapart : config.Apart) :
    ∃ value number, config.Stored left value number ∧ ∀ key,
      Survives (latest applied.bindings key) (value key) staged.bindings key ∧
        Survives (latest counted key) (number key) pending key := by
  obtain ⟨segment, lines, numbers, hsegment, hlines, hnumbers, hchanges, hactive, hindex, hnumber⟩ :=
    h.exists_cut hcut hseparate hapart
  have hplaces : ∀ file, file ≠ .index → file ≠ .segment engine.log.active.id →
      config.place file ∉ cutPlaces config engine := by
    rintro file hfile hfile' (hplace | hplace | hplace)
    · exact hfile' (hseparate.injective hplace)
    · exact hfile (hseparate.injective hplace)
    · exact hapart.file file (.inr hplace)
  have hother : ∀ id, id ≠ engine.log.active.id →
      config.fileBytes left (.segment id) = config.fileBytes start (.segment id) := fun id hid =>
    Config.fileBytes_of_changes hchanges (hplaces _ (by simp) (by simpa using hid))
  have hlodged : config.Lodged left engine.log.range.first := h.log.first_eq ▸
    h.lodged.of_changes hchanges (h.lodged.capacity.of_changes hchanges
      (hplaces _ (by simp) (by simp)))
  have hrange : config.range? left = some engine.log.range := by
    rw [Config.range?_congr (Config.fileBytes_of_changes hchanges (hplaces _ (by simp) (by simp)))]
    exact h.log.range?_eq
  have hvacant : config.Vacant left engine.log.range.next := h.vacant.of_changes hchanges
    fun id hid => hplaces _ (by simp)
      (ValueFile.segment_ne (UInt64.lt_of_lt_of_le h.log.active_lt_next hid)).symm
  have hreplayed : ∃ count, IndexLog.replayed left config.numberLog =
      AddressMap.ofEntries (counted ++ pending.take count) := by
    obtain ⟨count, hcount⟩ := IndexLog.replay_take counted pending
      (hcovers.numbersLength_eq ▸ hnumbers)
    have hleaf := h.numbers.leaf_eq
    rw [h.path_eq] at hleaf
    refine ⟨count, ?_⟩
    rw [IndexLog.replayed, hnumber, Disk.bytesAt, hleaf]
    exact hcount
  refine ⟨_, _, ⟨⟨engine.log.range, ⟨hchanges.wellFormed, hlodged.room, hlodged.capacity, hrange,
    hvacant⟩, hlodged, fun key => rfl⟩, fun key => rfl⟩, fun key => ⟨?_, ?_⟩⟩
  · -- the cut is behind the barrier, in its segment or in a later one
    refine h.log.survives_cut hactive hother hindex (fun entry hentry => ?_)
      (hcovers.indexLength_eq ▸ hlines) key
    exact (hcovers.ends entry hentry).mono hcovers.segment_le hsegment
  · obtain ⟨count, hcount⟩ := hreplayed
    rw [hcount, getElem?_ofEntries]
    exact survives_take counted pending count key

end Engine.Holds

namespace Engine

variable {config : Config} {engine : Engine} {start left : Disk} {drive : Drive} {barrier : Barrier}

/-- After any run the engine and its files keep step, and the last barrier covers what is visible. -/
theorem Lives.holds (h : Lives config start engine drive barrier)
    {value : Bytes → Option Bytes} {number : Bytes → Option UInt64}
    (hstored : config.Stored start value number) (hseparate : config.Separate)
    (hapart : config.Apart) (hvalid : config.validate = .ok ()) :
    ∃ origin base applied staged counted pending,
      Holds config engine drive.disk origin base applied staged counted pending ∧
        barrier.Covers config engine base applied staged counted pending := by
  -- wherever a store is opened, the session begins with a barrier
  have hbegin : ∀ {drive drive' : Drive} {engine : Engine} {value : Bytes → Option Bytes}
      {number : Bytes → Option UInt64}, config.Stored drive.disk value number →
      (Engine.openWith config).run.run drive = (.ok engine, drive') →
      ∃ origin base applied staged counted pending,
        Holds config engine drive'.disk origin base applied staged counted pending ∧
          (Barrier.now engine drive'.disk).Covers config engine base applied staged counted
            pending := by
    intro drive drive' engine value number hstored hrun
    have hafter := (achieves_openWith hstored hseparate hapart hvalid).after_run
    rw [hrun] at hafter
    obtain ⟨origin, base, applied, counted, hholds, -, -⟩ := hafter
    exact ⟨origin, base, applied, [], counted, [], hholds, hholds.covers_now⟩
  induction h with
  | opened hrun => exact @hbegin (ofDisk start) _ _ _ _ hstored hrun
  | put _ hsmall hrun ih =>
    obtain ⟨origin, base, applied, staged, counted, pending, hholds, hcovers⟩ := ih
    have hafter := (hholds.put hseparate hapart hvalid hsmall).after_run
    rw [hrun] at hafter
    obtain hfault | ⟨-, address, hnext, hholds'⟩ := hafter
    · -- a value that was not put does not belong to the run
      cases hfault
    · exact ⟨_, _, _, _, _, _, hholds',
        Holds.covers_put hcovers (hholds.active_le hholds' hnext) address _ _⟩
  | @putNumber _ _ _ _ _ key number _ hrun ih =>
    obtain ⟨origin, base, applied, staged, counted, pending, hholds, hcovers⟩ := ih
    have hafter := (hholds.putNumber hapart key number).after_run
    rw [hrun] at hafter
    exact ⟨_, _, _, _, _, _, hafter.2, Holds.covers_putNumber hcovers hafter.1 _ _⟩
  | sync _ hrun ih =>
    obtain ⟨origin, base, applied, staged, counted, pending, hholds, -⟩ := ih
    have hafter := hholds.sync.after_run
    rw [hrun] at hafter
    exact ⟨_, _, _, _, _, _, hafter, Holds.covers_now hafter⟩
  | closed _ hclose hrun ih =>
    obtain ⟨origin, base, applied, staged, counted, pending, hholds, -⟩ := ih
    have hafter := (hholds.close hseparate hapart).after_run
    rw [hclose] at hafter
    exact hbegin hafter hrun
  | crashed _ hcut hrun ih =>
    obtain ⟨origin, base, applied, staged, counted, pending, hholds, hcovers⟩ := ih
    obtain ⟨value, number, hstored, -⟩ := hholds.stored_cut hcovers hcut hseparate hapart
    exact @hbegin (ofDisk _) _ _ _ _ hstored hrun

/-- An entry that is written with success is part of a run. -/
theorem Lives.write {engine' : Engine} {drive' : Drive} {entry : Entry}
    (h : Lives config start engine drive barrier) (hsmall : entry.Small)
    (hrun : (engine.write entry).run.run drive = (.ok engine', drive')) :
    Lives config start engine' drive' (barrier.write entry) := by
  cases entry with
  | put key value =>
    rw [Engine.write, run_lift_bind] at hrun
    rcases hput : (engine.put key value).run drive with ⟨⟨written, fault | _⟩, last⟩ <;>
      rw [hput] at hrun <;> cases hrun
    exact h.put hsmall hput
  | putNumber key number =>
    cases hrun
    exact h.putNumber rfl

/-- So are entries in order. -/
theorem Lives.writeAll {engine' : Engine} {drive' : Drive} {entries : List Entry}
    (h : Lives config start engine drive barrier) (hsmall : ∀ entry ∈ entries, entry.Small)
    (hrun : (engine.writeAll entries).run.run drive = (.ok engine', drive')) :
    Lives config start engine' drive' (entries.foldl Barrier.write barrier) := by
  -- on the entries, for whatever was written in front of them
  induction entries generalizing engine drive barrier with
  | nil =>
    cases hrun
    exact h
  | cons entry rest ih =>
    obtain ⟨written, middle, hwritten, hrest⟩ := run_bind_ok hrun
    exact ih (h.write (hsmall entry List.mem_cons_self) hwritten)
      (fun other hother => hsmall other (List.mem_cons_of_mem _ hother)) hrest

/-- Whatever a crash has lost behind the last barrier, the store opens again, unless there are not enough
addresses left for what it copies; and each key has what it had at the barrier, or something that was put
since. -/
theorem lookups_of_cut {base : Config} {directory : Path} (hwell : start.WellFormed)
    (hempty : start.EmptyDirectory directory) (hcapacity : base.capacity ≠ 0)
    (hinterval : base.syncInterval ≠ 0)
    (hlives : Lives (base.withDirectory directory) start engine drive barrier)
    (hcut : Cut engine drive.disk barrier left) :
    match (Engine.openWith (base.withDirectory directory)).run.run (ofDisk left) with
    | (.ok reopened, last) => ∀ key,
      (∃ before after, barrier.value key = .ok before ∧ reopened.get last.disk key = .ok after ∧
        Survives before after barrier.values key) ∧
      Survives (barrier.number key) (reopened.getNumber key) barrier.numbers key
    | (.error fault, _) =>
      fault = .arithmetic ∧ ¬ (base.withDirectory directory).AffordsOpening left := by
  have hseparate := Config.separate_withDirectory base directory
  have hapart := Config.apart_withDirectory base directory
  have hvalid := Config.validate_withDirectory directory hcapacity hinterval
  obtain ⟨origin, lines, applied, staged, counted, pending, hholds, hcovers⟩ :=
    hlives.holds (stored_of_empty hwell hempty) hseparate hapart hvalid
  -- what the crash has left are the files of a store, which hold all that the barrier covers
  obtain ⟨value, number, hstored, hsurvives⟩ := hholds.stored_cut hcovers hcut hseparate hapart
  obtain ⟨_, hopen, -⟩ := hstored.exists_range
  have hafter := (achieves_openWith hstored hseparate hapart hvalid).after_run_ofDisk
  have htallied := (openWith_tallied hopen.wellFormed hseparate hapart hvalid).after_run_ofDisk
  rcases hrun : (Engine.openWith (base.withDirectory directory)).run.run (ofDisk left) with
    ⟨fault | reopened, last⟩ <;> rw [hrun] at hafter htallied
  · exact ⟨hafter, fun haffords => htallied haffords hafter⟩
  · obtain ⟨_, _, applied', counted', hreopened, hvalue, hnumber⟩ := hafter
    intro key
    obtain ⟨hvalues, hnumbers⟩ := hsurvives key
    refine ⟨⟨_, _, hcovers.value_eq key, hreopened.get_eq key, ?_⟩, ?_⟩
    · rw [hvalue, hcovers.values_eq]
      exact hvalues
    · rw [hreopened.getNumber_eq, hnumber, hcovers.number_eq, hcovers.numbers_eq]
      exact hnumbers

/-- A value and a number that a barrier covers. -/
def covered : List Entry := [.put [1] [10], .putNumber [1] 5]

/-- Another value and another number for the same key, behind the barrier. -/
def uncovered : List Entry := [.put [1] [20], .putNumber [1] 6]

/-- The session up to the barrier. -/
def writeCovered : DiskM Engine := do
  let engine ← Engine.openWith plain
  let engine ← engine.writeAll covered
  engine.sync

/-- That session is a run, and its barrier is the last one. -/
theorem lives_writeCovered (h : writeCovered.run.run (ofDisk Disk.fresh) = (.ok engine, drive)) :
    Lives plain Disk.fresh engine drive (.now engine drive.disk) := by
  obtain ⟨opened, middle, hopened, hrest⟩ := run_bind_ok h
  obtain ⟨written, middle', hwritten, hsynced⟩ := run_bind_ok hrest
  have hlives : Lives plain Disk.fresh written middle' _ :=
    (Lives.opened hopened).writeAll (by decide) hwritten
  exact hlives.sync (run_of_run_lift hsynced)

/-- What a crash leaves that loses what was written behind the barrier but for five bytes of the record and
three of the line of the number. The line of the record is there as a whole. -/
def tear (engine : Engine) (disk : Disk) (barrier : Barrier) : Disk :=
  disk.applyAll [.resize engine.log.active.file (barrier.segmentLength + 5),
    .resize engine.log.index.log (disk.contents engine.log.index.log).length,
    .resize engine.numbers.log (barrier.numbersLength + 3)]

/-- Lookups find what the barrier covers, though the index names the record that is torn. -/
theorem lookups_of_cut_plain : ∃ engine drive barrier reopened last,
    Lives plain Disk.fresh engine drive barrier ∧ barrier.value [1] = .ok (some [10]) ∧
    barrier.number [1] = some 5 ∧ barrier.values = [([1], [20])] ∧ barrier.numbers = [([1], 6)] ∧
    Cut engine drive.disk barrier (tear engine drive.disk barrier) ∧
    (Engine.openWith plain).run.run (ofDisk (tear engine drive.disk barrier)) = (.ok reopened, last) ∧
    reopened.get last.disk [1] = .ok (some [10]) ∧ reopened.getNumber [1] = some 5 ∧
    ∀ key, (∃ before after, barrier.value key = .ok before ∧ reopened.get last.disk key = .ok after ∧
        Survives before after barrier.values key) ∧
      Survives (barrier.number key) (reopened.getNumber key) barrier.numbers key := by
  have hruns : ∃ synced drive, writeCovered.run.run (ofDisk Disk.fresh) = (.ok synced, drive) ∧
      synced.get drive.disk [1] = .ok (some [10]) ∧ synced.getNumber [1] = some 5 ∧
      ∃ engine drive', (synced.writeAll uncovered).run.run drive = (.ok engine, drive') ∧
        (Barrier.now synced drive.disk).segmentLength + 5 ≤
          (drive'.disk.contents engine.log.active.file).length ∧
        (Barrier.now synced drive.disk).indexLength ≤
          (drive'.disk.contents engine.log.index.log).length ∧
        (Barrier.now synced drive.disk).numbersLength + 3 ≤
          (drive'.disk.contents engine.numbers.log).length ∧
        ∃ reopened last, (Engine.openWith plain).run.run (ofDisk (tear engine drive'.disk
            (uncovered.foldl Barrier.write (.now synced drive.disk)))) = (.ok reopened, last) ∧
          reopened.get last.disk [1] = .ok (some [10]) ∧ reopened.getNumber [1] = some 5 := by
    decide +kernel
  obtain ⟨synced, drive, hsession, hvalue, hnumber, engine, drive', hwritten, hsegment, hlines, hnumbers,
    reopened, last, hreopened, hget, hgetNumber⟩ := hruns
  have hlives := (lives_writeCovered hsession).writeAll (by decide) hwritten
  have hcut : Cut engine drive'.disk _ (tear engine drive'.disk
      (uncovered.foldl Barrier.write (.now synced drive.disk))) :=
    .ends (fun _ => Nat.le_add_right _ 5) hlines (Nat.le_add_right _ 3) hsegment (Nat.le_refl _) hnumbers
  have hlookups := lookups_of_cut Disk.wellFormed_fresh Disk.emptyDirectory_fresh (by decide) (by decide)
    hlives hcut
  rw [← plain, hreopened] at hlookups
  exact ⟨engine, drive', _, reopened, last, hlives, hvalue, hnumber, rfl, rfl, hcut, hreopened, hget,
    hgetNumber, hlookups⟩

end Engine

end BarrierStore
