import BarrierStore.Proofs.ValueLog.Sight

/-!
# The range in memory and the range on disk

A segment counts in the range file before it is made, and in memory only when it is there. So the two
ranges are the same as long as the files that writes need can be made, and they come to differ by one
segment when the file of the next segment cannot be: the range file keeps the id that was taken for it. A
later write that makes the segment brings them together again.

The module introduces:

* `ValueLog.said` — the range that the range file says, where it may be one segment ahead;
* `ValueLog.Tells` — the range file is ahead of an open log, or is not;
* `ValueLog.Attempts` — an opening, and writes and barriers behind it that may go well or fail while
  directories come and go.

Main statements: `Comes.tells`, by which each write keeps `Tells`, and `ValueLog.load_of_attempts`; and
`ValueLog.counts_missing_segment`, a failed write behind which the ranges differ.
-/

namespace BarrierStore

open Drive

namespace ValueLog

variable {config : Config} {log log' : ValueLog} {start disk : Disk} {places : Set Location}
  {record : Record} {fault : Fault} {outcome : Except Fault Unit} {counted : Bool}

/-- What the range file says: the range of the log, or that range with one more segment. -/
def said (log : ValueLog) (counted : Bool) : SegmentRange :=
  if counted then { log.range with next := log.range.next + 1 } else log.range

/-- The range file says what the log has unless a segment is counted that is missing. -/
theorem said_eq_range_iff : log.said counted = log.range ↔ counted = false := by
  cases counted with
  | false => exact iff_of_true rfl rfl
  | true =>
    refine iff_of_false (fun hsame => ?_) nofun
    have hnext : log.range.next + 1 = log.range.next := congrArg SegmentRange.next hsame
    simp at hnext

/-- A range that grows has one more segment. -/
theorem said_of_grow? {range : SegmentRange} (h : log.range.grow? = some range) :
    log.said true = range := by
  unfold SegmentRange.grow? at h
  split at h
  · exact Option.some.inj h
  · cases h

/-- The files of an open log are there, and its range file says the range of the log; or, where a segment
counts that is not there, that range with one more segment. -/
structure Tells (config : Config) (log : ValueLog) (disk : Disk) (counted : Bool) : Prop where
  exists_lines : ∃ lines, log.Anchored config disk lines
  path_eq : log.index.path = config.indexLog
  order : log.range.first ≤ log.range.next
  grows : counted = true → log.range.grow? = some (log.said true)
  range_bytes : config.fileBytes disk .range = some (Utf8.encode (log.said counted).encode)

/-- A log that keeps step with its files has a range file that says its range. -/
theorem Tracks.tells {origin : UInt64} {base : List (Bytes × UInt64)} {found : Found}
    (h : log.Tracks config disk origin base found) (hcapacity : config.capacity ≠ 0) :
    log.Tells config disk false where
  exists_lines := ⟨_, h.anchored hcapacity⟩
  path_eq := h.path_eq
  order := UInt64.le_trans h.first_le h.origin_le_next
  grows := nofun
  range_bytes := h.range_bytes

namespace Tells

/-- The disk is well-formed. -/
theorem wellFormed (h : log.Tells config disk counted) : disk.WellFormed := by
  obtain ⟨_, hlog⟩ := h.exists_lines
  exact hlog.wellFormed

/-- It says the range of the log, or a longer one. -/
theorem said_bounds (h : log.Tells config disk counted) :
    (log.said counted).first = log.range.first ∧ log.range.next ≤ (log.said counted).next := by
  cases counted with
  | false => exact ⟨rfl, UInt64.le_refl _⟩
  | true =>
    obtain ⟨hfirst, hnext⟩ := SegmentRange.of_grow? (h.grows rfl)
    exact ⟨hfirst, SegmentRange.le_next hnext⟩

/-- The range file says a range. -/
theorem range?_eq (h : log.Tells config disk counted) :
    config.range? disk = some (log.said counted) := by
  obtain ⟨hfirst, hnext⟩ := h.said_bounds
  rw [Config.range?, h.range_bytes]
  refine SegmentRange.ofBytes?_encode ?_
  rw [hfirst]
  exact UInt64.le_trans h.order hnext

/-- Other files may change. -/
theorem of_changes (h : log.Tells config start counted) (hchanges : start.Changes places disk)
    (hfile : ∀ file, config.place file ∉ places) : log.Tells config disk counted := by
  obtain ⟨lines, hlog⟩ := h.exists_lines
  exact { h with
    exists_lines := ⟨lines, hlog.of_changes hchanges (hfile _) (hfile _)⟩
    range_bytes := (Config.fileBytes_of_changes hchanges (hfile _)).trans h.range_bytes }

/-- Directories may come and go, as long as the active segment is found. -/
theorem of_leaf_eq (h : log.Tells config start counted) (hwell : disk.WellFormed)
    (hleaf : disk.leaf = start.leaf) (hreaches : disk.Reaches (config.segmentFile log.active.id)) :
    log.Tells config disk counted := by
  obtain ⟨lines, hlog⟩ := h.exists_lines
  exact { h with
    exists_lines := ⟨lines, { hlog with
      wellFormed := hwell
      reaches := hreaches
      index_leaf := (congrFun hleaf _).trans hlog.index_leaf
      active_leaf := hleaf ▸ hlog.active_leaf }⟩
    range_bytes := (Config.fileBytes_of_leaf_eq hleaf _).trans h.range_bytes }

/-- A file stands at the name of the range file, so no directory does. -/
theorem admits (h : log.Tells config disk counted) (hreaches : disk.Reaches config.rangeFile) :
    disk.Admits config.rangeFile := by
  obtain ⟨leaf, hleaf, -⟩ := Option.map_eq_some_iff.mp h.range_bytes
  exact ⟨hreaches, fun hdirectory => nomatch (Disk.leaf_of_directory hdirectory).symm.trans hleaf⟩

/-- A range file that can be read is loaded. -/
theorem load_eq (h : log.Tells config disk counted) (hadmits : disk.Admits config.rangeFile)
    (past : List Effect) :
    ((SegmentRange.load log.rangeFile).run.run ⟨disk, past⟩).1 = .ok (log.said counted) := by
  obtain ⟨lines, hlog⟩ := h.exists_lines
  have hloads : Achieves (SegmentRange.load config.rangeFile) disk (fun _ => True) _ _ :=
    SegmentRange.achieves_load config.rangeFile trivial
  have hloaded := @Meets.after_run _ _ _ _ ⟨disk, past⟩ hloads
  rw [hlog.rangeFile_eq]
  revert hloaded
  rcases ((SegmentRange.load config.rangeFile).run.run ⟨disk, past⟩).1 with fault | range
  · exact fun hfailed => absurd ⟨hadmits, _, h.range?_eq⟩ hfailed.2
  · intro hdone
    exact congrArg _ (Option.some.inj ((hdone.2.2 hadmits.toReaches).2.symm.trans h.range?_eq))

/-- The ways in which a write ends. -/
theorem meets_put (h : log.Tells config start counted) (hseparate : config.Separate)
    (key value : Bytes) :
    Meets (log.put key value) start (fun _ => True) (Comes config log ⟨key, value⟩ start) := by
  obtain ⟨_, hlog⟩ := h.exists_lines
  exact hlog.meets_put hseparate h.path_eq key value

/-- A barrier changes no file. -/
theorem meets_sync (h : log.Tells config start counted) :
    Meets log.sync start (fun _ => True) fun log' disk =>
      log'.sight config disk = (log.sight config start).sync ∧ start.Changes ∅ disk ∧
        log'.Tells config disk counted := by
  obtain ⟨lines, hlog⟩ := h.exists_lines
  refine hlog.meets_sync.mono (fun _ _ => trivial) ?_
  intro log' disk _ hsynced
  obtain ⟨hsight, hrange, hpath, hchanges, hlog'⟩ := hsynced
  have hsaid (counted : Bool) : log'.said counted = log.said counted := by rw [said, said, hrange]
  refine ⟨hsight, hchanges, ⟨lines, hlog'⟩, hpath.trans h.path_eq, ?_, ?_, ?_⟩
  · rw [hrange]
    exact h.order
  · rw [hrange, hsaid]
    exact h.grows
  · rw [hsaid, Config.fileBytes_of_changes hchanges (Set.notMem_empty _)]
    exact h.range_bytes

end Tells

/-! ## A write -/

/-- Behind room for a record the range file says what it should. -/
theorem Roomy.tells {length : Nat} (h : Roomy config log length start log' disk)
    (hlog : log.Tells config start counted) (hseparate : config.Separate) :
    log'.Tells config disk (counted && decide (log'.range = log.range)) := by
  cases h with
  | there =>
    rw [decide_eq_true rfl, Bool.and_true]
    exact hlog
  | made hfull hsealed =>
    obtain ⟨lines, hanchored⟩ := hlog.exists_lines
    have hbytes := hsealed.range_bytes
    have hkept := hsealed.anchored hanchored hseparate
    obtain ⟨range, file, hgrow, rfl, -⟩ := hsealed.exists_eq
    obtain ⟨hfirst, hnext⟩ := SegmentRange.of_grow? hgrow
    -- the range has grown in memory too
    have hne : range ≠ log.range := by
      rintro rfl
      omega
    rw [decide_eq_false hne, Bool.and_false]
    refine ⟨⟨lines, hkept⟩, hlog.path_eq, ?_, nofun, hbytes⟩
    show range.first ≤ range.next
    rw [hfirst]
    exact UInt64.le_trans hlog.order (SegmentRange.le_next hnext)

/-- So it does behind a record that was appended. -/
theorem Appended.tells (h : Appended config log record start log' disk)
    (hlog : log.Tells config start counted) (hseparate : config.Separate) :
    log'.Tells config disk counted := by
  obtain ⟨lines, hanchored⟩ := hlog.exists_lines
  have hkept := h.exists_anchored hanchored
  have hrange : config.place .range ∉ Tracks.appendPlaces config log :=
    Tracks.not_mem_appendPlaces hseparate (by simp) (by simp)
  have hbytes := Config.fileBytes_of_changes h.changes hrange
  -- the range of the log stays as it is
  obtain ⟨_, _, _, -, rfl, -⟩ := h.exists_eq
  exact ⟨hkept, hlog.path_eq, hlog.order, hlog.grows, hbytes.trans hlog.range_bytes⟩

namespace Comes

/-- A write that ends well, or runs out of ids or addresses: a segment that it has sealed counts in memory
too. -/
theorem tells (h : Comes config log record start (log', outcome) disk)
    (hlog : log.Tells config start counted) (hseparate : config.Separate)
    (hio : ∀ cause, outcome ≠ .error (.io cause)) :
    log'.Tells config disk (counted && decide (log'.range = log.range)) := by
  cases h with
  | refused _ hrefused =>
    rw [decide_eq_true rfl, Bool.and_true]
    cases hrefused with
    | exhausted _ hchanges => exact hlog.of_changes hchanges fun _ => Set.notMem_empty _
    | unstored => exact absurd rfl (hio _)
    | uncreated => exact absurd rfl (hio _)
  | unaddressed hroomy _ => exact hroomy.tells hlog hseparate
  | stored hroomy happended =>
    rw [happended.range_eq]
    exact happended.tells (hroomy.tells hlog hseparate) hseparate

variable {cause : IoFault}

/-- A write that fails because the range file cannot be replaced leaves it as it was. -/
theorem tells_of_unstored (h : Comes config log record start (log', .error (.io cause)) disk)
    (hlog : log.Tells config start counted) (hseparate : config.Separate)
    (hblocked : ¬ start.Admits config.besideRange) : log'.Tells config disk counted := by
  obtain ⟨rfl, -, hrefused, -⟩ := h.eq_of_io hseparate
  cases hrefused with
  | unstored _ hchanges =>
    exact hlog.of_changes hchanges fun file => (hseparate.besideRange file).symm
  | uncreated hadmits => exact absurd hadmits hblocked

/-- A write that fails because the next segment cannot be made leaves a range file that counts it. -/
theorem tells_of_uncreated (h : Comes config log record start (log', .error (.io cause)) disk)
    (hlog : log.Tells config start counted) (hseparate : config.Separate)
    (hadmits : start.Admits config.besideRange) (hrange : start.Admits config.rangeFile) :
    log'.Tells config disk true := by
  obtain ⟨rfl, -, hrefused, -⟩ := h.eq_of_io hseparate
  obtain ⟨lines, hanchored⟩ := hlog.exists_lines
  have hkept := hrefused.anchored hanchored hseparate
  cases hrefused with
  | unstored hrefused _ => exact absurd ⟨hadmits, hrange⟩ hrefused
  | uncreated _ _ hgrow _ hbytes =>
    have hsaid := said_of_grow? hgrow
    exact ⟨⟨lines, hkept⟩, hlog.path_eq, hlog.order, fun _ => hsaid ▸ hgrow, hsaid ▸ hbytes⟩

end Comes

/-! ## Any number of them -/

/-- An opening on the disk `start`, then writes and barriers, whether they go well or fail, while directories
come and go at places where nothing is. Directories that came stand at `places`; `counted` tells whether the
last write that went about making the next segment could not make it. -/
inductive Attempts (config : Config) (start : Disk) :
    ValueLog → Disk → Set Location → Bool → Prop
  /-- The log was opened. -/
  | opened {log : ValueLog} {report : Recovery} {drive : Drive} :
      (openAt config).run.run (ofDisk start) = (.ok (log, report), drive) →
      Attempts config start log drive.disk ∅ false
  /-- A write went well, or ran out of ids or addresses. -/
  | put {log log' : ValueLog} {disk : Disk} {places : Set Location} {counted : Bool}
      {key value : Bytes} {outcome : Except Fault Unit} {drive : Drive} :
      Attempts config start log disk places counted →
      (log.put key value).run (ofDisk disk) = ((log', outcome), drive) →
      (∀ cause, outcome ≠ .error (.io cause)) →
      Attempts config start log' drive.disk places (counted && decide (log'.range = log.range))
  /-- A write failed for a directory beside the range file. -/
  | unstored {log log' : ValueLog} {disk : Disk} {places : Set Location} {counted : Bool}
      {key value : Bytes} {cause : IoFault} {drive : Drive} :
      Attempts config start log disk places counted →
      (log.put key value).run (ofDisk disk) = ((log', .error (.io cause)), drive) →
      disk.node? config.besideRange.place = some .directory →
      Attempts config start log' drive.disk places counted
  /-- A write failed, and not for that. -/
  | uncreated {log log' : ValueLog} {disk : Disk} {places : Set Location} {counted : Bool}
      {key value : Bytes} {cause : IoFault} {drive : Drive} :
      Attempts config start log disk places counted →
      (log.put key value).run (ofDisk disk) = ((log', .error (.io cause)), drive) →
      disk.node? config.besideRange.place ≠ some .directory →
      Attempts config start log' drive.disk places true
  /-- A barrier was completed. -/
  | synced {log log' : ValueLog} {disk : Disk} {places : Set Location} {counted : Bool}
      {drive : Drive} : Attempts config start log disk places counted →
      log.sync.run (ofDisk disk) = (log', drive) →
      Attempts config start log' drive.disk places counted
  /-- A directory was made. -/
  | obstructed {log : ValueLog} {disk : Disk} {places : Set Location} {counted : Bool}
      {place : Location} : Attempts config start log disk places counted →
      disk.node? place = none →
      Attempts config start log (disk.apply (.makeDirectory place)) (insert place places) counted
  /-- A directory was taken away again. -/
  | cleared {log : ValueLog} {disk : Disk} {places : Set Location} {counted : Bool}
      {place : Location} : Attempts config start log disk places counted → place ∈ places →
      Attempts config start log (disk.apply (.remove place)) (places \ {place}) counted

/-- What is true of a log behind any number of attempts: apart from those directories, all is as the opening
left it. -/
structure Attempted (config : Config) (log : ValueLog) (disk : Disk) (places : Set Location)
    (counted : Bool) : Prop where
  tells : log.Tells config disk counted
  exists_base : ∃ (base : Disk) (id : UInt64), base.Encumbered places disk ∧
    base.Reaches config.rangeFile ∧ base.Reaches config.besideRange ∧
    base.Reaches (config.segmentFile id)

namespace Attempted

/-- The range file can be there whatever is in the way. -/
theorem admits_rangeFile (h : Attempted config log disk places counted) :
    disk.Admits config.rangeFile := by
  obtain ⟨base, _, hbase, hreaches, -⟩ := h.exists_base
  exact h.tells.admits (hreaches.mono hbase.keepsDirectories)

theorem reaches_besideRange (h : Attempted config log disk places counted) :
    disk.Reaches config.besideRange := by
  obtain ⟨base, _, hbase, -, hbeside, -⟩ := h.exists_base
  exact hbeside.mono hbase.keepsDirectories

/-- Files of the value log change. -/
theorem of_changes {changed : Set Location} (h : Attempted config log start places counted)
    (hchanges : start.Changes changed disk) {counted' : Bool}
    (htells : log'.Tells config disk counted') : Attempted config log' disk places counted' := by
  obtain ⟨base, id, hbase, hreaches⟩ := h.exists_base
  exact ⟨htells, base, id, hbase.of_changes hchanges, hreaches⟩

/-- An opening begins it. -/
theorem of_opened {middle : Disk} {old : SegmentRange} {base : List (Bytes × UInt64)} {copies : Found}
    (h : Opened config middle old base log copies disk) (hcapacity : config.capacity ≠ 0) :
    Attempted config log disk ∅ false where
  tells := h.tells hcapacity
  exists_base := ⟨disk, log.active.id, .refl disk,
    h.changes.reaches_iff.mpr h.admits_range.toReaches,
    h.changes.reaches_iff.mpr h.admits_besideRange.toReaches, h.reaches⟩

/-- Directories come and go, and take no file with them. -/
theorem of_leaf_eq {places' : Set Location} (h : Attempted config log start places counted)
    (hwell : disk.WellFormed) (hleaf : disk.leaf = start.leaf)
    (hbase : ∀ base : Disk, base.Encumbered places start → base.Encumbered places' disk) :
    Attempted config log disk places' counted := by
  obtain ⟨base, id, hencumbered, hrange, hbeside, hsegment⟩ := h.exists_base
  obtain ⟨_, hlog⟩ := h.tells.exists_lines
  have hafter := hbase base hencumbered
  -- the directories of `base` are there still, and the active segment lies in them
  have hreaches : base.Reaches (config.segmentFile log.active.id) :=
    hsegment.segment_of_reaches hlog.reaches
  exact ⟨h.tells.of_leaf_eq hwell hleaf (hreaches.mono hafter.keepsDirectories),
    base, id, hafter, hrange, hbeside, hsegment⟩

end Attempted

/-- Each attempt keeps what is true behind those in front of it. -/
theorem Attempts.attempted (h : Attempts config start log disk places counted)
    (hwell : start.WellFormed) (hseparate : config.Separate) :
    Attempted config log disk places counted := by
  -- by induction on the attempts: a write or a barrier changes files only, and directories take no file with
  -- them when they come and go
  induction h with
  | opened hrun =>
    have hopened := (opened_openAt_anywhere hwell hseparate).after_run_ofDisk
    rw [hrun] at hopened
    obtain ⟨hvalid, -, middle, old, base, copies, hopened, -⟩ := hopened
    exact .of_opened hopened (capacity_ne_of_validate hvalid)
  | @put log log' disk places counted key value outcome drive _ hrun hio ih =>
    have hcomes := (ih.tells.meets_put hseparate key value).after_run_ofDisk
    rw [hrun] at hcomes
    exact ih.of_changes (hcomes.changes ih.tells.wellFormed) (hcomes.tells ih.tells hseparate hio)
  | @unstored log log' disk places counted key value cause drive _ hrun hblocked ih =>
    have hcomes := (ih.tells.meets_put hseparate key value).after_run_ofDisk
    rw [hrun] at hcomes
    exact ih.of_changes (hcomes.changes ih.tells.wellFormed) (hcomes.tells_of_unstored ih.tells hseparate
      fun hadmits => hadmits.node_ne hblocked)
  | @uncreated log log' disk places counted key value cause drive _ hrun hfree ih =>
    have hcomes := (ih.tells.meets_put hseparate key value).after_run_ofDisk
    rw [hrun] at hcomes
    exact ih.of_changes (hcomes.changes ih.tells.wellFormed) (hcomes.tells_of_uncreated ih.tells hseparate
      ⟨ih.reaches_besideRange, hfree⟩ ih.admits_rangeFile)
  | @synced log log' disk places counted drive _ hrun ih =>
    have hsynced := ih.tells.meets_sync.after_run_ofDisk
    rw [hrun] at hsynced
    exact ih.of_changes hsynced.2.1 hsynced.2.2
  | @obstructed log disk places counted place _ hvacant ih =>
    have hgrows := Disk.grows_makeDirectory ih.tells.wellFormed hvacant
    exact ih.of_leaf_eq hgrows.wellFormed hgrows.leaf_eq fun _ hbase => hbase.insert hvacant
  | @cleared log disk places counted place _ hplace ih =>
    obtain ⟨_, _, hbase, -⟩ := ih.exists_base
    exact ih.of_leaf_eq (ih.tells.wellFormed.apply _) (hbase.leaf_erase hplace) fun _ hbase =>
      hbase.erase hplace

/-- After an opening and any number of writes and barriers, whichever of them failed for directories in the
way, the range file can be loaded; and it says the range of the log unless the last write that went about
making the next segment could not make it, and then it says one segment more. -/
theorem load_of_attempts (h : Attempts config start log disk places counted)
    (hwell : start.WellFormed) (hseparate : config.Separate) (past : List Effect) :
    ((SegmentRange.load log.rangeFile).run.run ⟨disk, past⟩).1 =
        .ok (if counted then { log.range with next := log.range.next + 1 } else log.range) ∧
      (((SegmentRange.load log.rangeFile).run.run ⟨disk, past⟩).1 = .ok log.range ↔
        counted = false) := by
  have hattempted := h.attempted hwell hseparate
  have hload := hattempted.tells.load_eq hattempted.admits_rangeFile past
  refine ⟨hload, ?_⟩
  rw [hload, Except.ok.injEq]
  exact said_eq_range_iff

/-- Segments of one byte: every record has a segment of its own. -/
def cramped : Config := { Config.default with capacity := 1 }

/-- The place of the second segment. -/
def secondSegment : Location := ["segment_1".toList, "data".toList]

/-- A directory that has the name of the second segment makes a put fail; the range file counts that
segment then. -/
theorem load_of_attempts_uncreated : ∃ log disk,
    Attempts (cramped.withDirectory Path.fresh) Disk.fresh log disk {secondSegment} true ∧
      ((SegmentRange.load log.rangeFile).run.run ⟨disk, []⟩).1 =
        .ok { log.range with next := log.range.next + 1 } := by
  -- the first value goes to a segment, and a directory stands where the segment of the second one is to go
  have hruns : ∃ opened drive,
      (openAt (cramped.withDirectory Path.fresh)).run.run (ofDisk Disk.fresh) = (.ok opened, drive) ∧
      ∃ (stored : ValueLog) (drive₁ : Drive),
        (opened.1.put [107] [118]).run (ofDisk drive.disk) = ((stored, .ok ()), drive₁) ∧
        drive₁.disk.node? secondSegment = none ∧
        (drive₁.disk.apply (.makeDirectory secondSegment)).node?
          (cramped.withDirectory Path.fresh).besideRange.place ≠ some .directory ∧
      ∃ (refused : ValueLog) (drive₂ : Drive),
        (stored.put [107] [119]).run (ofDisk (drive₁.disk.apply (.makeDirectory secondSegment))) =
          ((refused, .error (.io .isADirectory)), drive₂) := by
    decide +kernel
  obtain ⟨⟨log, report⟩, drive, hopened, stored, drive₁, hstored, hvacant, hfree, refused, drive₂,
    hrefused⟩ := hruns
  have hattempts := Attempts.uncreated
    (.obstructed (.put (.opened hopened) hstored nofun) hvacant) hrefused hfree
  rw [insert_empty_eq] at hattempts
  exact ⟨_, _, hattempts, (load_of_attempts hattempts Disk.wellFormed_fresh
    (Config.separate_withDirectory cramped Path.fresh) []).1⟩

/-- A directory stands where the second segment is to go. The second write fails, and then the log has the
segment 0 only, while the range file says that the segments 0 and 1 are in use. -/
theorem counts_missing_segment :
    ((do
      let (log, _) ← openAt (cramped.withDirectory Path.fresh)
      let (log, first) ← log.put [107] [118]
      perform (.makeDirectory secondSegment)
      let (log, second) ← log.put [107] [119]
      let loaded ← SegmentRange.load log.rangeFile
      return (first.toOption, second.toOption, log.range, loaded) :
        DiskM (Option Unit × Option Unit × SegmentRange × SegmentRange)).run.run
          (ofDisk Disk.fresh)).1.toOption = some (some (), none, ⟨0, 1⟩, ⟨0, 2⟩) := by
  decide +kernel

end ValueLog

end BarrierStore
