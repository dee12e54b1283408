import BarrierStore.Proofs.Engine.Leaving

/-!
# Another capacity

Addresses mean nothing without the capacity that they were made with, so a store is not opened with another
one. When that is found out the index has been opened already, and its log has been compacted: the refusal
comes before the segments and their range are touched, but not before any file is. What the log says has not
changed, so neither has the store.

The module introduces `Config.Compacted`: one disk is another one with the index log compacted.

Main statements: `Engine.refuses_capacity`, what a refused opening does and how the store is found behind it;
`Engine.compacts_before_refusing` is one that makes the index log shorter.
-/

namespace BarrierStore

open Drive

variable {config : Config} {start disk left : Disk} {during : Disk → Prop}

namespace Index

open IndexLog

/-- Opening an index replaces its log by the compact one, and does nothing else. -/
theorem achieves_openAt_becomes (h : start.WellFormed) {path : Path} (hadmits : start.Admits path)
    (hbeside : start.Admits (beside path)) :
    Achieves (openAt path) start (fun _ => True)
      (fun index disk => start.Becomes (Function.update (Function.update start.leaf (beside path).place
        none) path.place (some (index.log, compact (replayed start path)))) disk)
      (fun _ _ => False) := by
  refine Achieves.bind ((achieves_load path trivial).imp_failed fun _ _ _ hrefused =>
    hrefused.2 (hrefused.1 ▸ hadmits)) ?_
  rintro map _ - ⟨rfl, hloaded⟩
  obtain ⟨-, rfl⟩ := hloaded hadmits.toReaches
  refine Achieves.bind ((achieves_replaceFile h _ trivial (fun _ _ _ => trivial)
    fun _ _ _ _ => trivial).imp_failed fun _ _ _ hrefused => hrefused.2.1 ⟨hbeside, hadmits⟩) ?_
  rintro _ disk - ⟨-, -, id, hreplaced⟩
  have hleaf : disk.leaf path.place = some (id, compact (replayed start path)) := by
    rw [hreplaced.leaf_eq, Function.update_self]
  refine Achieves.bind ((achieves_openAppend hreplaced.wellFormed hleaf trivial).imp_failed
    fun _ _ _ hrefused => hrefused.2.1 (hrefused.1 ▸ hreplaced.admits_iff.mpr hadmits)) ?_
  rintro _ last - ⟨rfl, -, hopened⟩
  exact achieves_pure trivial ((hreplaced.trans hopened).congr hreplaced.leaf_eq)

end Index

/-- Where a capacity is on record, another one is refused, and nothing is written. -/
theorem ValueLog.achieves_checkCapacity_refused {recorded : UInt64}
    (hadmits : start.Admits (Capacity.file config.rangeFile))
    (hrecorded : config.capacity? start = some recorded) (hne : recorded ≠ config.capacity)
    (hbefore : during start) :
    Achieves (checkCapacity config) start during (fun _ _ => False) (fun fault disk =>
      start = disk ∧ fault = .config (.capacityMismatch config.capacity recorded)) := by
  obtain ⟨bytes, hbytes, hsaid⟩ := Option.bind_eq_some_iff.mp hrecorded
  unfold checkCapacity
  dsimp only
  refine Achieves.bind ((Capacity.achieves_load? _ hbefore).imp_failed ?_) ?_
  · rintro fault _ - ⟨-, hrefused⟩
    refine absurd ⟨hadmits, fun other hother => ?_⟩ hrefused
    obtain rfl := Option.some.inj (hbytes.symm.trans hother)
    simp [hsaid]
  rintro found _ - ⟨rfl, hfound⟩
  obtain ⟨-, rfl, -⟩ := hfound fun _ => hadmits.toReaches
  have hsome : (start.bytesAt (Capacity.file config.rangeFile).place).bind Capacity.ofBytes? =
      some recorded := hrecorded
  rw [hsome]
  dsimp only
  rw [if_pos hne]
  exact achieves_throw hbefore ⟨rfl, rfl⟩

namespace Config

/-- The index log has one line for each key, in place of what it had, and the file beside it is gone.
Nothing else has changed. -/
def Compacted (config : Config) (start disk : Disk) : Prop :=
  ∃ id, start.Becomes (Function.update (Function.update start.leaf config.besideIndex.place none)
    (config.place .index) (some (id, IndexLog.compact (config.indexed start)))) disk

/-- To compact the index log keeps what the files say. -/
theorem Compacted.keeps (h : config.Compacted start disk) (hseparate : config.Separate) :
    config.Keeps start disk := by
  obtain ⟨id, hbecomes⟩ := h
  refine ValueLog.keeps_of_index hseparate hbecomes.changes_move ?_
  rw [indexed, IndexLog.replayed_of_leaf (hbecomes.leaf_eq ▸ Function.update_self _ _ _),
    IndexLog.replay_compact, indexed]

end Config

namespace Engine

variable {value : Bytes → Option Bytes} {number : Bytes → Option UInt64}

/-- Opening a closed store with another capacity is refused once the index is open. -/
theorem achieves_openWith_refused (h : config.Stored start value number) (hseparate : config.Separate)
    (hrecorded : config.capacity? start = some config.capacity) {other : UInt64}
    (hne : other ≠ config.capacity) (hvalid : { config with capacity := other }.validate = .ok ()) :
    Achieves (Engine.openWith { config with capacity := other }) start (fun _ => True)
      (fun _ _ => False) (fun fault disk =>
        fault = .config (.capacityMismatch other config.capacity) ∧ config.Compacted start disk) := by
  obtain ⟨range, hopen, hlodged, -⟩ := h.exists_range
  rw [openWith_eq_makeParents hvalid]
  refine Achieves.bind (achieves_makeParents_of_hasParent hlodged.parent trivial) ?_
  rintro _ _ - rfl
  -- the index has been opened before the capacity is looked at
  refine Achieves.bind ((Index.achieves_openAt_becomes hopen.wellFormed
    hopen.room.index hopen.room.besideIndex).imp_failed fun _ _ _ => False.elim) ?_
  rintro index disk - hbecomes
  have hcompacted : config.Compacted start disk := ⟨index.log, hbecomes⟩
  have hkeeps := hcompacted.keeps hseparate
  have hopen' := hkeeps.openable hopen
  have hrecorded' : { config with capacity := other }.capacity? disk = some config.capacity :=
    (Config.capacity?_of_changes hbecomes.changes_move
      (ValueLog.not_mem_indexPlaces hseparate (by simp))).trans hrecorded
  refine Achieves.bind (m := fun _ _ => False) ?_ fun _ _ _ => False.elim
  rw [ValueLog.openWith_eq, hvalid]
  refine Achieves.bind (achieves_makeParent _ hopen'.room.parent trivial) ?_
  rintro _ _ - rfl
  refine Achieves.bind ((SegmentRange.achieves_load _ trivial).imp_failed fun _ _ _ hrefused =>
    absurd ⟨hopen'.room.range, range, hopen'.range_eq⟩ hrefused.2) ?_
  rintro old _ - ⟨rfl, -⟩
  refine Achieves.bind (m := fun _ _ => False) ((@ValueLog.achieves_checkCapacity_refused
    { config with capacity := other } _ _ _ hopen'.room.capacity hrecorded' hne.symm
    trivial).imp_failed ?_) fun _ _ _ => False.elim
  rintro _ _ - ⟨rfl, rfl⟩
  exact ⟨rfl, hcompacted⟩

/-- Opening with another capacity than that of the runs so far is refused. By then the index log has been
compacted, and nothing else was written; and what is opened on the disk with the old capacity reports the
same as if that had not been tried, unless it runs out of addresses. -/
theorem refuses_capacity {base : Config} {directory : Path} (hwell : start.WellFormed)
    (hempty : start.EmptyDirectory directory) (hcapacity : base.capacity ≠ 0)
    (hinterval : base.syncInterval ≠ 0) (hleft : Left (base.withDirectory directory) start left)
    {other : UInt64} (hother : other ≠ 0) (hne : other ≠ base.capacity) :
    ∃ refused, (Engine.openWith ({ base with capacity := other }.withDirectory directory)).run.run
        (ofDisk left) = (.error (.config (.capacityMismatch other base.capacity)), refused) ∧
      (base.withDirectory directory).Compacted left refused.disk ∧
      ∃ maps : Maps, ∀ calls : List Call, (∀ call ∈ calls, call.Small) →
        ∀ disk, disk = left ∨ disk = refused.disk →
          ((run (base.withDirectory directory) calls).run.run (ofDisk disk)).1 =
              .ok (maps.reports calls) ∨
            ((run (base.withDirectory directory) calls).run.run (ofDisk disk)).1 =
              .error .arithmetic := by
  have hseparate := Config.separate_withDirectory base directory
  have hapart := Config.apart_withDirectory base directory
  have hvalid := Config.validate_withDirectory directory hcapacity hinterval
  have hempty' : (base.withDirectory directory).Stored start _ _ := stored_of_empty hwell hempty
  obtain ⟨hrecorded, value, number, hstored⟩ := hleft.stored hempty' hseparate hapart hvalid
  have hvalid' : { base.withDirectory directory with capacity := other }.validate = .ok () :=
    @Config.validate_withDirectory { base with capacity := other } directory hother hinterval
  have hrefused : Achieves (Engine.openWith ({ base with capacity := other }.withDirectory directory))
      left (fun _ => True) (fun _ _ => False) (fun fault disk =>
        fault = .config (.capacityMismatch other base.capacity) ∧
          (base.withDirectory directory).Compacted left disk) :=
    achieves_openWith_refused hstored hseparate hrecorded hne hvalid'
  have hafter := hrefused.after_run_ofDisk
  rcases hrun : (Engine.openWith ({ base with capacity := other }.withDirectory directory)).run.run
    (ofDisk left) with ⟨fault | engine, refused⟩ <;> rw [hrun] at hafter
  · obtain ⟨rfl, hcompacted⟩ := hafter
    obtain ⟨maps, hmaps⟩ := hstored.exists_run_eq hseparate hapart hvalid
    refine ⟨refused, hrun, hcompacted, maps, fun calls hsmall disk hdisk => hmaps ?_ calls hsmall⟩
    -- compaction keeps what the files say
    rcases hdisk with rfl | rfl
    · exact hstored
    · exact hstored.of_keeps hapart (hcompacted.keeps hseparate)
  · exact hafter.elim

/-- A store in which a value was put with the default capacity refuses to open with segments of forty
bytes, and holds the same behind the refusal as in front of it. -/
theorem refuses_capacity_plain : ∃ left refused, Left plain Disk.fresh left ∧
    (Engine.openWith Config.narrow).run.run (ofDisk left) =
      (.error (.config (.capacityMismatch Config.narrow.capacity plain.capacity)), refused) ∧
    plain.Compacted left refused.disk ∧
    ∃ maps : Maps, ∀ calls : List Call, (∀ call ∈ calls, call.Small) →
      ∀ disk, disk = left ∨ disk = refused.disk →
        ((run plain calls).run.run (ofDisk disk)).1 = .ok (maps.reports calls) ∨
          ((run plain calls).run.run (ofDisk disk)).1 = .error .arithmetic := by
  have hruns : ∃ engine drive, (Engine.openWith plain).run.run (ofDisk Disk.fresh) = (.ok engine, drive) ∧
      ∃ (engine' : Engine) (drive' : Drive),
        (engine.put [107] [118]).run drive = ((engine', .ok ()), drive') := by
    decide +kernel
  obtain ⟨engine, drive, hopened, engine', drive', hput⟩ := hruns
  have hleft : Left plain Disk.fresh drive'.disk := .killed (.put (.opened hopened) (by decide) hput)
  obtain ⟨refused, hrefused⟩ := refuses_capacity Disk.wellFormed_fresh Disk.emptyDirectory_fresh
    (by decide) (by decide) hleft (show Config.narrow.capacity ≠ 0 by decide) (by decide)
  exact ⟨_, refused, hleft, hrefused⟩

/-- A key that was overwritten has two lines in the index log in front of the refusal, and one behind
it. -/
theorem compacts_before_refusing :
    ((do
      let engine ← Engine.openWith plain
      let (engine, _) ← engine.put [107] [118]
      let (engine, _) ← engine.put [107] [119]
      let _ ← engine.sync
      let before ← contentsOf plain.indexLog
      let outcome ← attempt (Engine.openWith Config.narrow)
      let after ← contentsOf plain.indexLog
      return (before.toBytes, match outcome with
        | .error (.config (.capacityMismatch asked recorded)) => some (asked, recorded)
        | _ => none, after.toBytes) : DiskM (Bytes × Option (UInt64 × UInt64) × Bytes)).run.run
          (ofDisk Disk.fresh)).1.toOption =
      some (IndexLog.encodeEntries [([107], 0), ([107], 18)],
        some (Config.narrow.capacity, plain.capacity), IndexLog.encodeEntries [([107], 18)]) := by
  decide +kernel

end Engine

end BarrierStore
