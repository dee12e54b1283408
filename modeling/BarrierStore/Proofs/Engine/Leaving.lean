import BarrierStore.Proofs.Engine.Durability
import BarrierStore.Proofs.Engine.Refinement
import BarrierStore.Proofs.Engine.Tally

/-!
# What an engine leaves

The process of an engine ends, or the engine is closed, or a crash of the machine loses the ends of its
files. What it leaves are the files of a closed store, with the capacity on record that they were made with,
and how an engine behaves that opens on them depends on nothing but what they say.

The module introduces `Engine.Left`, the disks that are left by any run.

Main statements: `Engine.Left.stored` and `Config.Stored.exists_run_eq`.
-/

namespace BarrierStore

open Drive

namespace Config

variable {config : Config} {start disk : Disk}

/-- The capacity on a disk does not depend on other files. -/
theorem capacity?_of_changes {places : Set Location} (hchanges : start.Changes places disk)
    (hplace : config.place .capacity ∉ places) : config.capacity? disk = config.capacity? start := by
  rw [capacity?, fileBytes_of_changes hchanges hplace, capacity?]

/-- Files that say the same are those of the same closed store. -/
theorem Stored.of_keeps {value : Bytes → Option Bytes} {number : Bytes → Option UInt64}
    (h : config.Stored start value number) (hapart : config.Apart) (hkeeps : config.Keeps start disk) :
    config.Stored disk value number := by
  obtain ⟨⟨range, hopen, hlodged, hvalue⟩, hnumber⟩ := h
  refine ⟨⟨range, hkeeps.openable hopen,
    hlodged.of_changes hkeeps.changes (hkeeps.capacity hopen.capacity), fun key => ?_⟩, fun key => ?_⟩
  · rw [hkeeps.selected_eq, hvalue]
  · rw [IndexLog.replayed, hkeeps.changes.bytesAt_eq hapart.numberLog]
    exact hnumber key

/-- What the files of a closed store say can be told by two maps. -/
theorem Stored.exists_maps {value : Bytes → Option Bytes} {number : Bytes → Option UInt64}
    (h : config.Stored start value number) : ∃ values counted,
      (∀ key, latest values key = value key) ∧ ∀ key, latest counted key = number key := by
  obtain ⟨⟨range, -, -, hvalue⟩, hnumber⟩ := h
  -- the values are those of the records that are selected
  have hcopies : Copies (config.indexed start) (config.scanned start range)
      (chosen (config.indexed start) (config.scanned start range) (config.scanned start range)) :=
    copies_of_chosen (ascending_scanned config start range) (List.append_nil _).symm rfl
  refine ⟨_, (IndexLog.replayed start config.numberLog).toList, fun key =>
    (latest_copies hcopies (fun _ => exists_copy_of_chosen rfl) key).trans (hvalue key), fun key => ?_⟩
  rw [← getElem?_ofEntries, Index.ofEntries_toList, hnumber]

/-- An engine on the files of a closed store reports what two maps say that do not depend on anything else,
unless it runs out of addresses. -/
theorem Stored.exists_run_eq {value : Bytes → Option Bytes} {number : Bytes → Option UInt64}
    (h : config.Stored start value number) (hseparate : config.Separate) (hapart : config.Apart)
    (hvalid : config.validate = .ok ()) : ∃ maps : Maps, ∀ {disk}, config.Stored disk value number →
      ∀ calls : List Call, (∀ call ∈ calls, call.Small) →
        ((Engine.run config calls).run.run (ofDisk disk)).1 = .ok (maps.reports calls) ∨
          ((Engine.run config calls).run.run (ofDisk disk)).1 = .error .arithmetic := by
  obtain ⟨values, counted, hvalues, hnumbers⟩ := h.exists_maps
  -- the maps are made from what the files say, so they are the same for every disk that says it
  let maps : Maps := ⟨⟨overlay ∅ values, ∅⟩, ⟨overlay ∅ counted, ∅⟩⟩
  have hshows {α : Type} (list : List (Bytes × α)) :
      (⟨overlay ∅ list, ∅⟩ : Layers α).Shows list [] := by
    refine ⟨fun key => ?_, fun key => Std.ExtTreeMap.getElem?_empty.symm⟩
    rw [getElem?_overlay, Std.ExtTreeMap.getElem?_empty, Option.or_none]
  refine ⟨maps.barrier, fun {disk} hdisk calls hsmall => ?_⟩
  have hstored : config.Stored disk (latest (values ++ [])) (latest (counted ++ [])) := by
    rw [List.append_nil, List.append_nil, funext hvalues, funext hnumbers]
    exact hdisk
  have hrun : Achieves (Engine.run config calls) disk (fun _ => True)
      (fun reports _ => reports = maps.barrier.reports calls) (fun fault _ => fault = .arithmetic) :=
    (Engine.Shows.of_stored hseparate hapart hvalid hstored (hshows values) (hshows counted)).bind
      fun engine last _ hengine => hengine.reports hseparate hapart hvalid hsmall
  have hafter := hrun.after_run_ofDisk
  rcases hresult : ((Engine.run config calls).run.run (ofDisk disk)).1 with fault | reports
  · rw [hresult] at hafter
    exact .inr (congrArg _ hafter)
  · rw [hresult] at hafter
    exact .inl (congrArg _ hafter)

end Config

namespace Engine

variable {config : Config} {engine : Engine} {start left : Disk} {drive : Drive} {barrier : Barrier}
  {value : Bytes → Option Bytes} {number : Bytes → Option UInt64}

/-- What is left of a store that was opened on `start` first, after any run. -/
inductive Left (config : Config) (start : Disk) : Disk → Prop
  /-- The process has ended, and nothing that it wrote is lost. -/
  | killed {engine : Engine} {drive : Drive} {barrier : Barrier} :
    Lives config start engine drive barrier → Left config start drive.disk
  /-- The engine was closed. -/
  | closed {engine : Engine} {drive drive' : Drive} {barrier : Barrier} :
    Lives config start engine drive barrier → engine.close.run.run drive = (.ok (), drive') →
      Left config start drive'.disk
  /-- The machine has crashed, and the ends of files are lost. -/
  | cut {engine : Engine} {drive : Drive} {barrier : Barrier} {left : Disk} :
    Lives config start engine drive barrier → Cut engine drive.disk barrier left →
      Left config start left

namespace Holds

variable {origin : UInt64} {base : List (Bytes × UInt64)} {applied staged : Found}
  {counted pending : List (Bytes × UInt64)}

/-- No write touches the capacity file. -/
theorem put_capacity (h : Holds config engine start origin base applied staged counted pending)
    (hseparate : config.Separate) (hvalid : config.validate = .ok ()) {key value : Bytes}
    (hsmall : Record.Small ⟨key, value⟩) :
    Meets (engine.put key value) start (fun _ => True) fun (_, outcome) disk =>
      outcome = .ok () → config.capacity? disk = config.capacity? start := by
  refine Meets.bind (h.log.put hseparate (ValueLog.capacity_ne_of_validate hvalid)
    (h.lodged.room.mono h.log.origin_le_next) hsmall) ?_
  rintro ⟨log, outcome⟩ disk - (rfl | ⟨rfl, address, -, hchanges, -⟩)
  · exact meets_pure trivial nofun
  · exact meets_pure trivial fun _ => Config.capacity?_of_changes hchanges
      (hseparate.not_mem_sessionPlaces (by simp) (by simp) (by simp))

/-- A number leaves the capacity on the disk. -/
theorem putNumber_capacity (h : Holds config engine start origin base applied staged counted pending)
    (hapart : config.Apart) (key : Bytes) (number : UInt64) :
    Meets (engine.putNumber key number) start (fun _ => True) fun _ disk =>
      config.capacity? disk = config.capacity? start := by
  refine Meets.bind (h.numbers.put h.log.wellFormed key number) ?_
  rintro numbers disk - ⟨-, -, hchanges, -⟩
  rw [h.path_eq] at hchanges
  exact meets_pure trivial (Config.capacity?_of_changes hchanges fun hplace =>
    hapart.file .capacity (.inr hplace))

/-- So does a barrier. -/
theorem sync_capacity (h : Holds config engine start origin base applied staged counted pending) :
    Meets engine.sync start (fun _ => True) fun _ disk =>
      config.capacity? disk = config.capacity? start := by
  refine Meets.bind h.log.sync ?_
  rintro log disk - ⟨-, -, -, hsame, -⟩
  have hchanges : start.Changes ∅ disk := hsame.changes fun _ _ => rfl
  refine Meets.bind ((h.numbers.of_changes hchanges (Set.notMem_empty _)).sync hsame.wellFormed) ?_
  rintro numbers last - ⟨-, -, hsame', -⟩
  exact meets_pure trivial (Config.capacity?_of_changes
    (hchanges.trans (hsame'.changes fun _ _ => rfl)) (Set.notMem_empty _))

/-- So does the end of a session. -/
theorem close_capacity (h : Holds config engine start origin base applied staged counted pending)
    (hseparate : config.Separate) (hapart : config.Apart) :
    Achieves engine.close start (fun _ => True)
      (fun _ disk => config.capacity? disk = config.capacity? start) (fun _ _ => False) := by
  refine (h.close_changes hseparate hapart).imp_done fun _ disk _ hchanges =>
    Config.capacity?_of_changes hchanges ?_
  rintro (hplace | hplace)
  · exact ValueLog.not_mem_indexPlaces hseparate (by simp) hplace
  · exact hapart.file .capacity hplace

/-- So does a crash that cuts the logs. -/
theorem cut_capacity (h : Holds config engine start origin base applied staged counted pending)
    (hcut : Cut engine start barrier left) (hseparate : config.Separate) (hapart : config.Apart) :
    config.capacity? left = config.capacity? start := by
  obtain ⟨-, -, -, -, -, -, hchanges, -⟩ := h.exists_cut hcut hseparate hapart
  refine Config.capacity?_of_changes hchanges ?_
  rintro (hplace | hplace | hplace)
  · exact absurd (hseparate.injective hplace) (by simp)
  · exact absurd (hseparate.injective hplace) (by simp)
  · exact hapart.file .capacity (.inr hplace)

end Holds

section Runs

variable (hstored : config.Stored start value number) (hseparate : config.Separate)
  (hapart : config.Apart) (hvalid : config.validate = .ok ())

include hstored hseparate hapart hvalid

/-- In any run the capacity of the store is on record. -/
theorem Lives.capacity?_eq (h : Lives config start engine drive barrier) :
    config.capacity? drive.disk = some config.capacity := by
  have hholds {engine : Engine} {drive : Drive} {barrier : Barrier}
      (h : Lives config start engine drive barrier) := h.holds hstored hseparate hapart hvalid
  -- an opening records it, or finds it recorded
  have hopen {drive drive' : Drive} {engine : Engine} (hwell : drive.disk.WellFormed)
      (hrun : (Engine.openWith config).run.run drive = (.ok engine, drive')) :
      config.capacity? drive'.disk = some config.capacity := by
    have hafter := (openWith_tallied hwell hseparate hapart hvalid).after_run
    rw [hrun] at hafter
    exact hafter.1
  induction h with
  | opened hrun =>
    obtain ⟨range, hstart, -⟩ := hstored.exists_range
    exact @hopen (ofDisk start) _ _ hstart.wellFormed hrun
  | put h hsmall hrun ih =>
    obtain ⟨_, _, _, _, _, _, hholds, -⟩ := hholds h
    have hafter := (hholds.put_capacity hseparate hvalid hsmall).after_run
    rw [hrun] at hafter
    exact (hafter rfl).trans ih
  | @putNumber _ _ _ _ _ key number h hrun ih =>
    obtain ⟨_, _, _, _, _, _, hholds, -⟩ := hholds h
    have hafter := (hholds.putNumber_capacity hapart key number).after_run
    rw [hrun] at hafter
    exact hafter.trans ih
  | sync h hrun ih =>
    obtain ⟨_, _, _, _, _, _, hholds, -⟩ := hholds h
    have hafter := hholds.sync_capacity.after_run
    rw [hrun] at hafter
    exact hafter.trans ih
  | closed h hclose hrun =>
    obtain ⟨_, _, _, _, _, _, hholds, -⟩ := hholds h
    have hafter := (hholds.close_changes hseparate hapart).after_run
    rw [hclose] at hafter
    exact hopen hafter.wellFormed hrun
  | crashed h hcut hrun =>
    obtain ⟨_, _, _, _, _, _, hholds, hcovers⟩ := hholds h
    obtain ⟨_, _, hleft, -⟩ := hholds.stored_cut hcovers hcut hseparate hapart
    obtain ⟨range, hleft, -⟩ := hleft.exists_range
    exact @hopen (ofDisk _) _ _ hleft.wellFormed hrun

/-- What is left is a closed store, with its capacity on record. -/
theorem Left.stored (h : Left config start left) :
    config.capacity? left = some config.capacity ∧
      ∃ value number, config.Stored left value number := by
  cases h with
  | killed h =>
    obtain ⟨_, _, _, _, _, _, hholds, -⟩ := h.holds hstored hseparate hapart hvalid
    exact ⟨h.capacity?_eq hstored hseparate hapart hvalid, _, _, hholds.stored⟩
  | closed h hclose =>
    obtain ⟨_, _, _, _, _, _, hholds, -⟩ := h.holds hstored hseparate hapart hvalid
    have hclosed := (hholds.close hseparate hapart).after_run
    have hcapacity := (hholds.close_capacity hseparate hapart).after_run
    rw [hclose] at hclosed hcapacity
    exact ⟨hcapacity.trans (h.capacity?_eq hstored hseparate hapart hvalid), _, _, hclosed⟩
  | cut h hcut =>
    obtain ⟨_, _, _, _, _, _, hholds, hcovers⟩ := h.holds hstored hseparate hapart hvalid
    obtain ⟨value, number, hleft, -⟩ := hholds.stored_cut hcovers hcut hseparate hapart
    exact ⟨(hholds.cut_capacity hcut hseparate hapart).trans
      (h.capacity?_eq hstored hseparate hapart hvalid), value, number, hleft⟩

end Runs

end Engine

end BarrierStore
