import BarrierStore.Proofs.ValueLog.Persisted
import BarrierStore.Proofs.ValueLog.Tally

/-!
# Writes that fail and are tried again

A write that needs the next segment fails while a directory stands where the segment goes, or beside the
range file. It leaves the log as it was, and all its files but the range file. So once the directory is
gone, the log goes on as one does for which that write was never attempted: it has the same bindings, at the
same addresses. A log that is opened behind it is different in one respect only: the segment that could not
be made may count all the same, so that its own segments come one id later. Near the end of the address
space this one id may be missing, and then the opening fails.

The module introduces:

* `ValueLog.Bears` — an open log with its bindings, which can be opened again;
* `ValueLog.Matched` — a log for which writes failed, and one for which they did not;
* `ValueLog.Courses` — two runs, one of them with writes that fail, which do the same otherwise;
* `ValueLog.Agree` — what is the same in both.

Main statements: `ValueLog.agree_of_courses`, and `ValueLog.refusal_takes_id`, a failed write behind which a
log does not open that opens without it.
-/

namespace BarrierStore

open Drive

namespace Config

variable {config : Config} {base disk : Disk}

/-- Where no directory has come, there is room as before. -/
theorem HasRoom.of_encumbered {first : UInt64} (h : config.HasRoom base first)
    (hbase : base.Encumbered ∅ disk) : config.HasRoom disk first where
  parent := h.parent.mono hbase.keepsDirectories
  index := hbase.admits h.index (Set.notMem_empty _)
  besideIndex := hbase.admits h.besideIndex (Set.notMem_empty _)
  range := hbase.admits h.range (Set.notMem_empty _)
  besideRange := hbase.admits h.besideRange (Set.notMem_empty _)
  capacity := hbase.admits h.capacity (Set.notMem_empty _)
  segment id hid := hbase.admits (h.segment id hid) (Set.notMem_empty _)

/-- Directories in the way leave the recorded capacity. -/
theorem HasCapacity.of_encumbered (h : config.HasCapacity base) (hbase : base.Encumbered ∅ disk)
    (hbytes : config.fileBytes disk .capacity = config.fileBytes base .capacity) :
    config.HasCapacity disk := by
  rw [HasCapacity, hbytes]
  exact h.imp_left fun hnone => ⟨hnone.1, hbase.admits hnone.2 (Set.notMem_empty _)⟩

/-- Segments that are not there have no records. -/
theorem scanned_of_vacant {first middle next : UInt64} (h : config.Vacant disk middle)
    (hfirst : first ≤ middle) (hnext : middle ≤ next) :
    config.scanned disk ⟨first, next⟩ = config.scanned disk ⟨first, middle⟩ := by
  have hnone : config.scanned disk ⟨middle, next⟩ = [] :=
    List.flatMap_eq_nil_iff.mpr fun id hid =>
      scannedSegment_of_none (h id (SegmentRange.mem_ids_iff.mp hid).1)
  rw [scanned_append hfirst hnext, hnone, List.append_nil]

end Config

namespace ValueLog

variable {config : Config} {log log' : ValueLog} {start base disk disk' : Disk}
  {places : Set Location} {visible all : Bytes → Option Bytes} {key value : Bytes}

/-! ## A log and its bindings -/

/-- An open log with these bindings, those that are visible and all of them; and it can be opened again. -/
structure Bears (config : Config) (log : ValueLog) (disk : Disk)
    (visible all : Bytes → Option Bytes) : Prop where
  valid : config.validate = .ok ()
  exists_serves : ∃ origin base applied staged, log.Serves config disk origin base applied staged ∧
    latest applied.bindings = visible ∧ latest (applied ++ staged).bindings = all
  openable : config.Openable disk log.range

/-- An opening shows all that its files select, and it goes well unless it runs out of addresses. -/
theorem bears_openAt {old : SegmentRange} (hopen : config.Openable start old)
    (hseparate : config.Separate)
    (hselected : ∀ key,
      selectedValue (config.indexed start) (config.scanned start old) key = all key) :
    Achieves (openAt config) start (fun _ => True)
      (fun state disk => state.1.Bears config disk all all)
      (fun fault _ => config.validate = .ok () →
        fault = .arithmetic ∧ ¬ config.AffordsOpening start) := by
  refine ((achieves_openAt hopen.wellFormed hseparate hopen.room.parent fun _ hdisk => hdisk).and
    (openAt_tallied hopen.wellFormed hseparate)).mono (fun _ _ => trivial) ?_ ?_
  · intro state disk _ hdone
    obtain ⟨⟨hvalid, -, -, -, -, old', base, copies, hopened⟩, -⟩ := hdone
    obtain rfl : old = old' := Option.some.inj (hopen.range_eq.symm.trans hopened.range_eq)
    have hall : latest copies.bindings = all :=
      funext fun key => (hopened.value_eq key).trans (hselected key)
    refine ⟨hvalid, ⟨_, _, copies, [], hopened.toServes, hall, ?_⟩, hopened.openable hopen⟩
    rw [List.append_nil]
    exact hall
  · intro fault disk _ hfailed hvalid
    have harithmetic : fault = .arithmetic := hfailed.1 hvalid ⟨old, hopen⟩
    exact ⟨harithmetic, fun haffords => hfailed.2 haffords harithmetic⟩

namespace Bears

/-- The range file says what it should. -/
theorem tells (h : log.Bears config disk visible all) : log.Tells config disk false := by
  obtain ⟨_, _, _, _, hserves, -⟩ := h.exists_serves
  exact hserves.toTracks.tells (capacity_ne_of_validate h.valid)

/-- A lookup finds what is visible. -/
theorem get_eq (h : log.Bears config disk visible all) (key : Bytes) :
    log.get disk key = .ok (visible key) := by
  obtain ⟨_, _, _, _, hserves, rfl, -⟩ := h.exists_serves
  exact hserves.get_eq key

/-- What an opening would find are all bindings. -/
theorem selected_eq (h : log.Bears config disk visible all) (key : Bytes) :
    selectedValue (config.indexed disk) (config.scanned disk log.range) key = all key := by
  obtain ⟨_, _, _, _, hserves, -, rfl⟩ := h.exists_serves
  exact (hserves.selected_eq key).2

/-- A write adds a binding, unless it runs out of ids or addresses. -/
theorem put (h : log.Bears config start visible all) (hseparate : config.Separate)
    (hsmall : Record.Small ⟨key, value⟩) :
    Meets (log.put key value) start (fun _ => True) fun result disk =>
      result.2 = .error .arithmetic ∨ result.2 = .ok () ∧
        result.1.Bears config disk visible (Function.update all key (some value)) := by
  obtain ⟨origin, base, applied, staged, hserves, hvisible, rfl⟩ := h.exists_serves
  refine (hserves.put hseparate (capacity_ne_of_validate h.valid)
    (h.openable.room.mono h.openable.order) hsmall).mono (fun _ _ => trivial) ?_
  intro result disk _ hput
  refine hput.imp id fun hdone => ?_
  obtain ⟨hok, address, -, hchanges, hvacant, hserves'⟩ := hdone
  have hopen : config.Openable disk result.1.range := h.openable.of_session hseparate hchanges
    (hserves'.first_eq.trans hserves.first_eq.symm) hserves'.range?_eq (hvacant h.openable.vacant)
  refine ⟨hok, h.valid, ⟨_, _, _, _, hserves', hvisible, ?_⟩, hopen⟩
  rw [← List.append_assoc, Found.bindings_append]
  ext other : 1
  rw [Function.update_apply]
  exact latest_concat _ _ _ _

/-- A put without directories in the way fails for want of addresses only. -/
theorem put_fault (h : log.Bears config start visible all) (hseparate : config.Separate)
    (hsmall : Record.Small ⟨key, value⟩) (fault : Fault)
    (hfault : ((log.put key value).run (ofDisk start)).1.2 = .error fault) :
    fault = .arithmetic := by
  obtain hput | ⟨hok, -⟩ := (h.put hseparate hsmall).after_run_ofDisk
  · exact Except.error.inj (hfault.symm.trans hput)
  · cases hfault.symm.trans hok

/-- A barrier makes all bindings visible. -/
theorem sync (h : log.Bears config start visible all) :
    Meets log.sync start (fun _ => True) fun log' disk => log'.Bears config disk all all := by
  obtain ⟨origin, base, applied, staged, hserves, -, rfl⟩ := h.exists_serves
  refine hserves.sync.mono (fun _ _ => trivial) ?_
  intro log' disk _ hsynced
  obtain ⟨-, hrange, -, hbecomes, hserves'⟩ := hsynced
  have hchanges : start.Changes ∅ disk := hbecomes.changes fun _ _ => rfl
  refine ⟨h.valid, ⟨_, _, _, _, hserves', rfl, by rw [List.append_nil]⟩, ?_⟩
  rw [hrange]
  exact h.openable.of_changes hchanges (Set.notMem_empty _) (Set.notMem_empty _)
    fun _ _ => Set.notMem_empty _

end Bears

/-! ## A log for which writes failed -/

/-- What is seen of a log does not change with directories. -/
theorem sight_of_leaf_eq (hleaf : disk.leaf = start.leaf) :
    log.sight config disk = log.sight config start := by
  have hfiles : (log.sight config disk).files = (log.sight config start).files :=
    files_sight_eq_iff.mpr fun file _ => Config.fileBytes_of_leaf_eq hleaf file
  exact Sight.ext rfl rfl rfl rfl rfl rfl hfiles

/-- The log `log'` on `disk'` is seen as `log` on `disk` is. Its range file may be one segment ahead, and its
disk has more directories, at `places`. -/
structure Matched (config : Config) (log : ValueLog) (disk : Disk) (log' : ValueLog) (disk' : Disk)
    (places : Set Location) : Prop where
  exists_counted : ∃ counted, log'.Tells config disk' counted
  encumbered : disk.Encumbered places disk'
  sight_eq : log'.sight config disk' = log.sight config disk

namespace Matched

variable {last last' : ValueLog} {drive' : Drive}

theorem refl (h : log.Bears config disk visible all) : Matched config log disk log disk ∅ :=
  ⟨⟨false, h.tells⟩, .refl disk, rfl⟩

/-- Both logs have the same range. -/
theorem range_eq (h : Matched config log disk log' disk' places) : log'.range = log.range :=
  congrArg Sight.range h.sight_eq

/-- Both logs have the same active segment. -/
theorem active_eq (h : Matched config log disk log' disk' places) :
    log'.active.id = log.active.id :=
  congrArg Sight.active h.sight_eq

/-- All files but the range file have the same bytes on both disks. -/
theorem fileBytes_eq (h : Matched config log disk log' disk' places) {file : ValueFile}
    (hfile : file ≠ .range) : config.fileBytes disk' file = config.fileBytes disk file :=
  files_sight_eq_iff.mp (congrArg Sight.files h.sight_eq) file hfile

/-- Readers find the same. -/
theorem get_eq (h : Matched config log disk log' disk' places)
    (hlog : log.Bears config disk visible all) (key : Bytes) :
    log'.get disk' key = .ok (visible key) := by
  obtain ⟨_, _, _, _, hserves, rfl, -⟩ := hlog.exists_serves
  obtain ⟨_, htells⟩ := h.exists_counted
  obtain ⟨_, hanchored⟩ := htells.exists_lines
  -- a reader goes by what is seen only: the visible map, the capacity and the bytes of the segments
  exact hserves.get_eq_of_fileBytes (congrArg Sight.capacity h.sight_eq) hanchored.stem_eq
    (congrArg Sight.applied h.sight_eq) (hserves.reaches.mono h.encumbered.keepsDirectories)
    (fun id => h.fileBytes_eq (by simp)) key

/-- A write that goes well does the same in both. -/
theorem put (h : Matched config log disk log' disk' places)
    (hlog : log.Bears config disk visible all) (hseparate : config.Separate)
    (hsmall : Record.Small ⟨key, value⟩)
    (hrun : (log'.put key value).run (ofDisk disk') = ((last', .ok ()), drive')) :
    ∃ last drive, (log.put key value).run (ofDisk disk) = ((last, .ok ()), drive) ∧
      last.Bears config drive.disk visible (Function.update all key (some value)) ∧
      Matched config last drive.disk last' drive'.disk places := by
  obtain ⟨_, htells'⟩ := h.exists_counted
  have hcomes' := (htells'.meets_put hseparate key value).after_run_ofDisk
  rw [hrun] at hcomes'
  have hsight := hcomes'.put?_sight hseparate
  rw [h.sight_eq] at hsight
  have hcomes := (hlog.tells.meets_put hseparate key value).after_run_ofDisk
  have hput := (hlog.put hseparate hsmall).after_run_ofDisk
  rcases hrun' : (log.put key value).run (ofDisk disk) with ⟨⟨last, outcome⟩, drive⟩
  rw [hrun'] at hcomes hput
  rcases hput with rfl | ⟨rfl, hlast⟩
  · -- it would run out of addresses in both
    rw [hcomes.put?_sight_of_arithmetic hseparate] at hsight
    cases hsight
  · rw [hcomes.put?_sight hseparate] at hsight
    have htells := hcomes'.tells htells' hseparate nofun
    -- no directory has come or gone on either disk
    exact ⟨last, drive, rfl, hlast, ⟨_, htells⟩,
      (h.encumbered.of_changes (hcomes'.changes htells'.wellFormed)).of_changes_base
        (hcomes.changes hlog.tells.wellFormed), (Option.some.inj hsight).symm⟩

/-- A write that fails for a file is as if it had not been attempted. -/
theorem refused (h : Matched config log disk log' disk' places)
    (hlog : log.Bears config disk visible all) (hseparate : config.Separate) {cause : IoFault}
    (hrun : (log'.put key value).run (ofDisk disk') = ((last', .error (.io cause)), drive')) :
    Matched config log disk last' drive'.disk places := by
  obtain ⟨counted, htells⟩ := h.exists_counted
  have hcomes := (htells.meets_put hseparate key value).after_run_ofDisk
  rw [hrun] at hcomes
  obtain ⟨rfl, -, -, hsight⟩ := hcomes.eq_of_io hseparate
  have hrange : disk'.Admits config.rangeFile :=
    htells.admits (hlog.openable.room.range.toReaches.mono h.encumbered.keepsDirectories)
  -- the range file is ahead if it could be replaced
  have htells' : ∃ counted, last'.Tells config drive'.disk counted := by
    by_cases hbeside : disk'.Admits config.besideRange
    · exact ⟨true, hcomes.tells_of_uncreated htells hseparate hbeside hrange⟩
    · exact ⟨counted, hcomes.tells_of_unstored htells hseparate hbeside⟩
  exact ⟨htells', h.encumbered.of_changes (hcomes.changes htells.wellFormed),
    hsight.trans h.sight_eq⟩

/-- So does a barrier. -/
theorem sync (h : Matched config log disk log' disk' places)
    (hlog : log.Bears config disk visible all) {drive : Drive}
    (hrun : log.sync.run (ofDisk disk) = (last, drive))
    (hrun' : log'.sync.run (ofDisk disk') = (last', drive')) :
    last.Bears config drive.disk all all ∧
      Matched config last drive.disk last' drive'.disk places := by
  obtain ⟨counted, htells'⟩ := h.exists_counted
  have hbears := hlog.sync.after_run_ofDisk
  have hsynced := hlog.tells.meets_sync.after_run_ofDisk
  have hsynced' := htells'.meets_sync.after_run_ofDisk
  rw [hrun] at hbears hsynced
  rw [hrun'] at hsynced'
  obtain ⟨hsight, hchanges, -⟩ := hsynced
  obtain ⟨hsight', hchanges', htells'⟩ := hsynced'
  refine ⟨hbears, ⟨counted, htells'⟩,
    (h.encumbered.of_changes hchanges').of_changes_base hchanges, ?_⟩
  rw [hsight, hsight', h.sight_eq]

/-- Directories come and go, and take no file with them. -/
theorem of_leaf_eq (h : Matched config log disk log' start places)
    (hlog : log.Bears config disk visible all) {places' : Set Location} (hwell : disk'.WellFormed)
    (hleaf : disk'.leaf = start.leaf) (hencumbered : disk.Encumbered places' disk') :
    Matched config log disk log' disk' places' := by
  obtain ⟨_, _, _, _, hserves, -⟩ := hlog.exists_serves
  obtain ⟨counted, htells⟩ := h.exists_counted
  have hreaches := hserves.reaches.mono hencumbered.keepsDirectories
  rw [← h.active_eq] at hreaches
  exact ⟨⟨counted, htells.of_leaf_eq hwell hleaf hreaches⟩, hencumbered,
    (sight_of_leaf_eq hleaf).trans h.sight_eq⟩

/-- Once the directories are gone, there is room for the files of a log. -/
theorem hasRoom (h : Matched config log disk log' disk' ∅)
    (hlog : log.Bears config disk visible all) : config.HasRoom disk' log.range.first :=
  hlog.openable.room.of_encumbered h.encumbered

/-- Then the files can be opened, and select the same bindings. -/
theorem exists_openable (h : Matched config log disk log' disk' ∅)
    (hlog : log.Bears config disk visible all) : ∃ range, config.Openable disk' range ∧
      ∀ key, selectedValue (config.indexed disk') (config.scanned disk' range) key = all key := by
  obtain ⟨counted, htells⟩ := h.exists_counted
  -- an opening goes by the range file, which is all that may be different
  have hsegment : ∀ id, config.fileBytes disk' (.segment id) = config.fileBytes disk (.segment id) :=
    fun id => h.fileBytes_eq (by simp)
  have hvacant : config.Vacant disk' log.range.next :=
    fun id hid => (hsegment id).trans (hlog.openable.vacant id hid)
  obtain ⟨hfirst, hnext⟩ := htells.said_bounds
  rw [h.range_eq] at hfirst hnext
  refine ⟨log'.said counted, ⟨htells.wellFormed, ?_, ?_, htells.range?_eq, ?_⟩, fun key => ?_⟩
  · rw [hfirst]
    exact h.hasRoom hlog
  · exact hlog.openable.capacity.of_encumbered h.encumbered (h.fileBytes_eq (by simp))
  · exact fun id hid => hvacant id (UInt64.le_trans hnext hid)
  · -- a segment that counts and is not there has no records
    have hscanned : config.scanned disk' (log'.said counted) = config.scanned disk log.range := by
      have hadded := Config.scanned_of_vacant hvacant hlog.openable.order hnext
      rw [← hfirst] at hadded
      exact (hadded.trans (by rw [hfirst])).trans (Config.scanned_congr fun id _ _ => hsegment id)
    rw [hscanned, Config.indexed_congr (h.fileBytes_eq (by simp))]
    exact hlog.selected_eq key

/-- Then a write ends alike in both. -/
theorem outcome_eq (h : Matched config log disk log' disk' ∅)
    (hlog : log.Bears config disk visible all) (hseparate : config.Separate)
    (hsmall : Record.Small ⟨key, value⟩) :
    ((log'.put key value).run (ofDisk disk')).1.2 = ((log.put key value).run (ofDisk disk)).1.2 := by
  obtain ⟨_, htells'⟩ := h.exists_counted
  have hcomes' := (htells'.meets_put hseparate key value).after_run_ofDisk
  rcases hrun' : (log'.put key value).run (ofDisk disk') with ⟨⟨last', fault | _⟩, drive'⟩
  · -- with room for all files, what is seen decides whether there is an address
    have hroom := h.hasRoom hlog
    have horder : log.range.first ≤ log'.range.next := h.range_eq ▸ hlog.openable.order
    rw [hrun'] at hcomes'
    obtain rfl := hcomes'.eq_arithmetic hroom.range hroom.besideRange (hroom.segment _ horder)
    have hsight := hcomes'.put?_sight_of_arithmetic hseparate
    rw [h.sight_eq] at hsight
    have hcomes := (hlog.tells.meets_put hseparate key value).after_run_ofDisk
    have hput := (hlog.put hseparate hsmall).after_run_ofDisk
    rcases hrun : (log.put key value).run (ofDisk disk) with ⟨⟨last, outcome⟩, drive⟩
    rw [hrun] at hcomes hput
    rcases hput with rfl | ⟨rfl, -⟩
    · rfl
    · rw [hcomes.put?_sight hseparate] at hsight
      cases hsight
  · obtain ⟨last, drive, hrun, -⟩ := h.put hlog hseparate hsmall hrun'
    rw [hrun]

end Matched

/-- A write that needs a segment fails while a directory is in the way, and leaves the log and all of its
files but the range file as they were. -/
theorem Tells.put_blocked {counted : Bool} (h : log.Tells config disk counted)
    (hseparate : config.Separate) (hfull : log.isFull (Record.length ⟨key, value⟩) = true)
    (hblocked : disk.node? config.besideRange.place = some .directory ∨
      disk.node? (config.place (.segment log.range.next)) = some .directory) :
    ∃ fault drive, (log.put key value).run (ofDisk disk) = ((log, .error fault), drive) ∧
      ((∃ cause, fault = .io cause) ∨ fault = .arithmetic ∧ log.range.grow? = none) ∧
      ∀ file, file ≠ .range → config.fileBytes drive.disk file = config.fileBytes disk file := by
  have hcomes := (h.meets_put hseparate key value).after_run_ofDisk
  rcases hrun : (log.put key value).run (ofDisk disk) with ⟨⟨log', outcome⟩, drive⟩
  rw [hrun] at hcomes
  obtain ⟨fault, rfl, rfl, hrefused⟩ := hcomes.refused_of_blocked hfull fun hadmits =>
    hblocked.elim hadmits.1.node_ne hadmits.2.node_ne
  refine ⟨fault, drive, rfl, ?_,
    files_sight_eq_iff.mp (congrArg Sight.files (hrefused.sight_eq hseparate))⟩
  cases hrefused with
  | exhausted hgrow _ => exact .inr ⟨rfl, hgrow⟩
  | unstored => exact .inl ⟨_, rfl⟩
  | uncreated => exact .inl ⟨_, rfl⟩

/-! ## Two runs -/

/-- Two runs from an opening on the disk `start`. In the second one directories come and go, and writes fail
for them, which are not attempted in the first one; otherwise both do the same: writes, barriers, and openings
of the log behind the end of the process. Directories that came stand at `places`; `reopened` tells whether
the log was opened again. -/
inductive Courses (config : Config) (start : Disk) :
    ValueLog → Disk → ValueLog → Disk → Set Location → Bool → Prop
  /-- The log was opened. -/
  | opened {log : ValueLog} {report : Recovery} {drive : Drive} :
      (openAt config).run.run (ofDisk start) = (.ok (log, report), drive) →
      Courses config start log drive.disk log drive.disk ∅ false
  /-- A write went well in both. -/
  | put {log last log' last' : ValueLog} {disk disk' : Disk} {places : Set Location} {reopened : Bool}
      {key value : Bytes} {drive drive' : Drive} :
      Courses config start log disk log' disk' places reopened → Record.Small ⟨key, value⟩ →
      (log.put key value).run (ofDisk disk) = ((last, .ok ()), drive) →
      (log'.put key value).run (ofDisk disk') = ((last', .ok ()), drive') →
      Courses config start last drive.disk last' drive'.disk places reopened
  /-- A write failed for a file in the second one. -/
  | refused {log log' last' : ValueLog} {disk disk' : Disk} {places : Set Location} {reopened : Bool}
      {key value : Bytes} {cause : IoFault} {drive' : Drive} :
      Courses config start log disk log' disk' places reopened →
      (log'.put key value).run (ofDisk disk') = ((last', .error (.io cause)), drive') →
      Courses config start log disk last' drive'.disk places reopened
  /-- A barrier was completed in both. -/
  | synced {log last log' last' : ValueLog} {disk disk' : Disk} {places : Set Location}
      {reopened : Bool} {drive drive' : Drive} :
      Courses config start log disk log' disk' places reopened →
      log.sync.run (ofDisk disk) = (last, drive) → log'.sync.run (ofDisk disk') = (last', drive') →
      Courses config start last drive.disk last' drive'.disk places reopened
  /-- A directory was made in the second one. -/
  | obstructed {log log' : ValueLog} {disk disk' : Disk} {places : Set Location} {reopened : Bool}
      {place : Location} :
      Courses config start log disk log' disk' places reopened → disk'.node? place = none →
      Courses config start log disk log' (disk'.apply (.makeDirectory place)) (insert place places)
        reopened
  /-- A directory was taken away again. -/
  | cleared {log log' : ValueLog} {disk disk' : Disk} {places : Set Location} {reopened : Bool}
      {place : Location} :
      Courses config start log disk log' disk' places reopened → place ∈ places →
      Courses config start log disk log' (disk'.apply (.remove place)) (places \ {place}) reopened
  /-- The process died in both, and the log was opened again when the directories were gone. -/
  | reopened {log last log' last' : ValueLog} {disk disk' : Disk} {reopened : Bool}
      {report report' : Recovery} {drive drive' : Drive} :
      Courses config start log disk log' disk' ∅ reopened →
      (openAt config).run.run (ofDisk disk) = (.ok (last, report), drive) →
      (openAt config).run.run (ofDisk disk') = (.ok (last', report'), drive') →
      Courses config start last drive.disk last' drive'.disk ∅ true

/-- What is the same in two runs, one with writes that fail and one without. -/
structure Agree (config : Config) (log : ValueLog) (disk : Disk) (log' : ValueLog) (disk' : Disk)
    (places : Set Location) (reopened : Bool) : Prop where
  /-- Readers find the same, and never an error. -/
  exists_get_eq (key : Bytes) : ∃ value, log.get disk key = .ok value ∧ log'.get disk' key = .ok value
  /-- Until the log is opened again, everything is seen alike: the segments and the active one of them, where
  it ends, the addresses of all keys, and the bytes of all files but the range file. -/
  sight_eq : reopened = false → log'.sight config disk' = log.sight config disk
  /-- A write that needs a segment fails while a directory is in the way, and it changes nothing but the range
  file. -/
  put_blocked {key value : Bytes} : log'.isFull (Record.length ⟨key, value⟩) = true →
    (disk'.node? config.besideRange.place = some .directory ∨
      disk'.node? (config.place (.segment log'.range.next)) = some .directory) →
    ∃ fault drive, (log'.put key value).run (ofDisk disk') = ((log', .error fault), drive) ∧
      ((∃ cause, fault = .io cause) ∨ fault = .arithmetic ∧ log'.range.grow? = none) ∧
      ∀ file, file ≠ .range → config.fileBytes drive.disk file = config.fileBytes disk' file
  /-- Once the directories are gone, writes only run out of ids or addresses; and that they do in both, until
  the log is opened again. -/
  put_clear {key value : Bytes} : places = ∅ → Record.Small ⟨key, value⟩ →
    (∀ fault, ((log.put key value).run (ofDisk disk)).1.2 = .error fault → fault = .arithmetic) ∧
      (∀ fault, ((log'.put key value).run (ofDisk disk')).1.2 = .error fault → fault = .arithmetic) ∧
      (reopened = false →
        ((log'.put key value).run (ofDisk disk')).1.2 = ((log.put key value).run (ofDisk disk)).1.2)
  /-- Then the log opens again on both disks, unless there are no addresses left for its records. -/
  opens {last : Disk} {fault : Fault} {drive : Drive} : places = ∅ → last = disk ∨ last = disk' →
    (openAt config).run.run (ofDisk last) = (.error fault, drive) →
    fault = .arithmetic ∧ ¬ config.AffordsOpening last

/-- The two runs have the same bindings, and the second one is matched by one that has the same session
without the writes that failed. That is the first run, until the log is opened again. -/
def Twinned (config : Config) (log : ValueLog) (disk : Disk) (log' : ValueLog) (disk' : Disk)
    (places : Set Location) (reopened : Bool) : Prop :=
  ∃ visible all twin base, log.Bears config disk visible all ∧ twin.Bears config base visible all ∧
    Matched config twin base log' disk' places ∧ (reopened = false → twin = log ∧ base = disk)

namespace Twinned

variable {last last' : ValueLog} {drive drive' : Drive} {reopened : Bool}

/-- An opening begins two runs that are one. -/
theorem refl (h : log.Bears config disk visible all) :
    Twinned config log disk log disk ∅ false :=
  ⟨_, _, _, _, h, h, .refl h, fun _ => ⟨rfl, rfl⟩⟩

/-- A put that goes well on both sides keeps the twins alike. -/
theorem put (h : Twinned config log disk log' disk' places reopened) (hseparate : config.Separate)
    (hsmall : Record.Small ⟨key, value⟩)
    (hrun : (log.put key value).run (ofDisk disk) = ((last, .ok ()), drive))
    (hrun' : (log'.put key value).run (ofDisk disk') = ((last', .ok ()), drive')) :
    Twinned config last drive.disk last' drive'.disk places reopened := by
  obtain ⟨visible, all, twin, base, hlog, htwin, hmatched, hsame⟩ := h
  obtain ⟨twin', middle, hmiddle, htwin', hmatched'⟩ := hmatched.put htwin hseparate hsmall hrun'
  have hput := (hlog.put hseparate hsmall).after_run_ofDisk
  rw [hrun] at hput
  obtain hfault | ⟨-, hlast⟩ := hput
  · cases hfault
  refine ⟨_, _, twin', middle.disk, hlast, htwin', hmatched', fun hfirst => ?_⟩
  obtain ⟨rfl, rfl⟩ := hsame hfirst
  obtain ⟨⟨rfl, -⟩, rfl⟩ := Prod.mk.inj (hmiddle.symm.trans hrun)
  exact ⟨rfl, rfl⟩

/-- So does one that the disk refuses on one side. -/
theorem refused (h : Twinned config log disk log' disk' places reopened)
    (hseparate : config.Separate) {cause : IoFault}
    (hrun : (log'.put key value).run (ofDisk disk') = ((last', .error (.io cause)), drive')) :
    Twinned config log disk last' drive'.disk places reopened := by
  obtain ⟨visible, all, twin, base, hlog, htwin, hmatched, hsame⟩ := h
  exact ⟨visible, all, twin, base, hlog, htwin, hmatched.refused htwin hseparate hrun, hsame⟩

/-- So does a barrier on both sides. -/
theorem sync (h : Twinned config log disk log' disk' places reopened)
    (hrun : log.sync.run (ofDisk disk) = (last, drive))
    (hrun' : log'.sync.run (ofDisk disk') = (last', drive')) :
    Twinned config last drive.disk last' drive'.disk places reopened := by
  obtain ⟨visible, all, twin, base, hlog, htwin, hmatched, hsame⟩ := h
  rcases hmiddle : twin.sync.run (ofDisk base) with ⟨twin', middle⟩
  obtain ⟨htwin', hmatched'⟩ := hmatched.sync htwin hmiddle hrun'
  have hlast := hlog.sync.after_run_ofDisk
  rw [hrun] at hlast
  refine ⟨all, all, twin', middle.disk, hlast, htwin', hmatched', fun hfirst => ?_⟩
  obtain ⟨rfl, rfl⟩ := hsame hfirst
  obtain ⟨rfl, rfl⟩ := Prod.mk.inj (hmiddle.symm.trans hrun)
  exact ⟨rfl, rfl⟩

/-- A directory may be made where nothing is. -/
theorem obstruct {place : Location} (h : Twinned config log disk log' disk' places reopened)
    (hvacant : disk'.node? place = none) :
    Twinned config log disk log' (disk'.apply (.makeDirectory place)) (insert place places)
      reopened := by
  obtain ⟨visible, all, twin, base, hlog, htwin, hmatched, hsame⟩ := h
  obtain ⟨_, htells⟩ := hmatched.exists_counted
  have hgrows := Disk.grows_makeDirectory htells.wellFormed hvacant
  exact ⟨visible, all, twin, base, hlog, htwin, hmatched.of_leaf_eq htwin hgrows.wellFormed
    hgrows.leaf_eq (hmatched.encumbered.insert hvacant), hsame⟩

/-- It may be removed. -/
theorem clear {place : Location} (h : Twinned config log disk log' disk' places reopened)
    (hplace : place ∈ places) :
    Twinned config log disk log' (disk'.apply (.remove place)) (places \ {place}) reopened := by
  obtain ⟨visible, all, twin, base, hlog, htwin, hmatched, hsame⟩ := h
  obtain ⟨_, htells⟩ := hmatched.exists_counted
  exact ⟨visible, all, twin, base, hlog, htwin, hmatched.of_leaf_eq htwin
    (htells.wellFormed.apply _) (hmatched.encumbered.leaf_erase hplace)
    (hmatched.encumbered.erase hplace), hsame⟩

/-- Both sides may be opened again when no directory is in the way. -/
theorem reopen {report report' : Recovery} (h : Twinned config log disk log' disk' ∅ reopened)
    (hseparate : config.Separate)
    (hrun : (openAt config).run.run (ofDisk disk) = (.ok (last, report), drive))
    (hrun' : (openAt config).run.run (ofDisk disk') = (.ok (last', report'), drive')) :
    Twinned config last drive.disk last' drive'.disk ∅ true := by
  obtain ⟨visible, all, twin, base, hlog, htwin, hmatched, -⟩ := h
  obtain ⟨range, hopen, hselected⟩ := hmatched.exists_openable htwin
  have hlast := (bears_openAt hlog.openable hseparate hlog.selected_eq).after_run_ofDisk
  have hlast' := (bears_openAt hopen hseparate hselected).after_run_ofDisk
  rw [hrun] at hlast
  rw [hrun'] at hlast'
  -- from here on the second run is its own twin
  exact ⟨all, all, last', drive'.disk, hlast, hlast', .refl hlast', nofun⟩

/-- What two such runs have in common. -/
theorem agree (h : Twinned config log disk log' disk' places reopened) (hseparate : config.Separate) :
    Agree config log disk log' disk' places reopened := by
  obtain ⟨visible, all, twin, base, hlog, htwin, hmatched, hsame⟩ := h
  obtain ⟨_, htells⟩ := hmatched.exists_counted
  refine ⟨fun key => ⟨visible key, hlog.get_eq key, hmatched.get_eq htwin key⟩, fun hfirst => ?_,
    fun hfull hblocked => htells.put_blocked hseparate hfull hblocked, fun hclear hsmall => ?_,
    fun hclear hlast hrun => ?_⟩
  · obtain ⟨rfl, rfl⟩ := hsame hfirst
    exact hmatched.sight_eq
  · subst hclear
    refine ⟨hlog.put_fault hseparate hsmall, ?_, fun hfirst => ?_⟩
    · rw [hmatched.outcome_eq htwin hseparate hsmall]
      exact htwin.put_fault hseparate hsmall
    · obtain ⟨rfl, rfl⟩ := hsame hfirst
      exact hmatched.outcome_eq htwin hseparate hsmall
  · subst hclear
    obtain ⟨range, hopen, hselected⟩ := hmatched.exists_openable htwin
    -- either log opens again, unless there are too few addresses left for its copies
    obtain rfl | rfl := hlast
    · have hfailed := (bears_openAt hlog.openable hseparate hlog.selected_eq).after_run_ofDisk
      rw [hrun] at hfailed
      exact hfailed hlog.valid
    · have hfailed := (bears_openAt hopen hseparate hselected).after_run_ofDisk
      rw [hrun] at hfailed
      exact hfailed hlog.valid

end Twinned

/-- Each step of two runs keeps them together. -/
theorem Courses.twinned {old : SegmentRange} {reopened : Bool}
    (h : Courses config start log disk log' disk' places reopened) (hseparate : config.Separate)
    (hopen : config.Openable start old) : Twinned config log disk log' disk' places reopened := by
  -- by induction on the runs; the bindings and the twin change from step to step
  induction h with
  | opened hrun =>
    have hlog := (bears_openAt hopen hseparate fun _ => rfl).after_run_ofDisk
    rw [hrun] at hlog
    exact .refl hlog
  | put _ hsmall hrun hrun' ih => exact ih.put hseparate hsmall hrun hrun'
  | refused _ hrun ih => exact ih.refused hseparate hrun
  | synced _ hrun hrun' ih => exact ih.sync hrun hrun'
  | obstructed _ hvacant ih => exact ih.obstruct hvacant
  | cleared _ hplace ih => exact ih.clear hplace
  | reopened _ hrun hrun' ih => exact ih.reopen hseparate hrun hrun'

/-- A write that fails for a directory in the way changes nothing but the range file; and when the directory
is gone, a log for which such writes failed goes on as one for which they were not attempted. -/
theorem agree_of_courses {old : SegmentRange} {reopened : Bool} (hseparate : config.Separate)
    (hopen : config.Openable start old)
    (h : Courses config start log disk log' disk' places reopened) :
    Agree config log disk log' disk' places reopened :=
  (h.twinned hseparate hopen).agree hseparate

set_option synthInstance.maxSize 256 in
/-- A put that failed because it could not make its segment has taken the id, so the segments of the two
sides differ by one behind an opening. -/
theorem agree_of_courses_uncreated : ∃ log disk log' disk',
    Courses (cramped.withDirectory Path.fresh) Disk.fresh log disk log' disk' ∅ true ∧
      log.range = ⟨1, 2⟩ ∧ log'.range = ⟨2, 3⟩ ∧
      Agree (cramped.withDirectory Path.fresh) log disk log' disk' ∅ true := by
  -- behind the first value, a directory comes and goes where the segment of the second one is to be
  have hruns : ∃ opened drive,
      (openAt (cramped.withDirectory Path.fresh)).run.run (ofDisk Disk.fresh) = (.ok opened, drive) ∧
      ∃ (stored : ValueLog) (drive₁ : Drive),
        (opened.1.put [107] [118]).run (ofDisk drive.disk) = ((stored, .ok ()), drive₁) ∧
        drive₁.disk.node? secondSegment = none ∧
      ∃ (refused : ValueLog) (drive₂ : Drive),
        (stored.put [107] [119]).run (ofDisk (drive₁.disk.apply (.makeDirectory secondSegment))) =
          ((refused, .error (.io .isADirectory)), drive₂) ∧
      ∃ first drive₃, (openAt (cramped.withDirectory Path.fresh)).run.run (ofDisk drive₁.disk) =
          (.ok first, drive₃) ∧ first.1.range = ⟨1, 2⟩ ∧
      ∃ second drive₄, (openAt (cramped.withDirectory Path.fresh)).run.run
          (ofDisk (drive₂.disk.apply (.remove secondSegment))) = (.ok second, drive₄) ∧
        second.1.range = ⟨2, 3⟩ := by
    decide +kernel
  obtain ⟨⟨log, report⟩, drive, hopened, stored, drive₁, hstored, hvacant, refused, drive₂, hrefused,
    ⟨first, _⟩, drive₃, hrun, hfirst, ⟨second, _⟩, drive₄, hrun', hsecond⟩ := hruns
  have hcleared := Courses.cleared (.refused (.obstructed (.put (.opened hopened) (by decide) hstored
    hstored) hvacant) hrefused) (Set.mem_insert _ _)
  rw [insert_empty_eq, Set.sdiff_self] at hcleared
  have hcourses := Courses.reopened hcleared hrun hrun'
  exact ⟨first, drive₃.disk, second, drive₄.disk, hcourses, hfirst, hsecond,
    agree_of_courses (Config.separate_withDirectory cramped Path.fresh)
      (Config.openable_of_empty Disk.wellFormed_fresh Disk.emptyDirectory_fresh) hcourses⟩

/-- The place of the last segment but one. -/
def lateSegment : Location := ["segment_18446744073709551614".toList, "data".toList]

/-- Three ids are left. One goes to the segment of the first value; and a second one to a segment that cannot
be made, for a directory in the way. When the directory is gone, the log does not open again. Without the
write that failed it opens, and has the first value. -/
theorem refusal_takes_id :
    let config := cramped.withDirectory Path.fresh
    let begin : DiskM ValueLog := do
      SegmentRange.store config.rangeFile ⟨18446744073709551613, 18446744073709551613⟩
      let (log, _) ← openAt config
      let (log, _) ← log.put [107] [118]
      return log
    let refuse (log : ValueLog) : DiskM (Except Fault Unit) := do
      perform (.makeDirectory lateSegment)
      let (_, outcome) ← log.put [107] [119]
      perform (.remove lateSegment)
      return outcome
    let reopen : DiskM (Except Fault (Option Bytes)) := do
      let (log, _) ← openAt config
      return log.get (← current) [107]
    ((begin >>= refuse).run.run (ofDisk Disk.fresh)).1 = .ok (.error (.io .isADirectory)) ∧
      ((begin >>= refuse >>= fun _ => reopen).run.run (ofDisk Disk.fresh)).1 = .error .arithmetic ∧
      ((begin >>= fun _ => reopen).run.run (ofDisk Disk.fresh)).1 = .ok (.ok (some [118])) := by
  decide +kernel

end ValueLog

end BarrierStore
