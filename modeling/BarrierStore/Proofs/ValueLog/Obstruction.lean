import BarrierStore.Proofs.Disk.Obstacles
import BarrierStore.Proofs.ValueLog.Opening

/-!
# A value log and directories in the way

Opening a value log and closing it follow their runs on the clean disk, whatever directories are in the way:
of each of its files it is known beforehand by which path it is looked for.

The module introduces:

* `Config.paths` — the paths by which a store looks for its files;
* `ValueLog.Lies` — a log lies where a configuration says.

Main statements: `Index.follows_openAt`, `ValueLog.follows_openWith` and `ValueLog.Lies.follows_close`.
-/

namespace BarrierStore

open Drive

namespace Config

variable (config : Config)

/-- The paths by which a store looks for its files. -/
def paths : Set Path :=
  {config.indexLog, config.besideIndex, config.rangeFile, config.besideRange,
    Capacity.file config.rangeFile, config.besideCapacity, config.numberLog, config.besideNumbers} ∪
    Set.range config.segmentFile

/-- Segments are looked for by these paths. -/
theorem segmentFile_mem_paths (id : UInt64) : config.segmentFile id ∈ config.paths :=
  .inr ⟨id, rfl⟩

end Config

variable {paths roots : Set Path}

/-! ## The index -/

section Index

variable {path : Path} (hpath : path ∈ paths) (hbeside : IndexLog.beside path ∈ paths)

include hpath

/-- To load an index log follows its run on the clean disk. -/
theorem IndexLog.follows_load : Follows paths roots (load path) fun _ => True := by
  refine (follows_contentsOf? hpath).bind fun contents _ => ?_
  cases contents <;> exact follows_pure trivial

include hbeside

/-- So does storing one. -/
theorem IndexLog.follows_store (map : AddressMap) :
    Follows paths roots (store path map) fun _ => True :=
  follows_replaceFile hpath hbeside _

/-- So does opening an index, and its path is known then. -/
theorem Index.follows_openAt :
    Follows paths roots (Index.openAt path) fun index => index.path = path :=
  (IndexLog.follows_load hpath).bind fun map _ => (IndexLog.follows_store hpath hbeside map).bind
    fun _ _ => (follows_openAppend hpath).bind fun _ _ => follows_pure rfl

end Index

/-- So does a binding that is made. -/
theorem Index.follows_put (index : Index) (key : Bytes) (address : UInt64) :
    Follows paths roots (liftM (index.put key address)) fun index' => index'.path = index.path := by
  have hsteps : (liftM (index.put key address) : DiskM Index) =
      (liftM (append index.log (Line.encode key address)) >>= fun _ =>
        pure { index with staged := index.staged.insert key address }) := rfl
  rw [hsteps]
  exact (follows_append _ _).bind fun _ _ => follows_pure rfl

/-- So does a barrier. -/
theorem Index.follows_sync (index : Index) :
    Follows paths roots (liftM index.sync) fun index' => index'.path = index.path := by
  have hsteps : (liftM index.sync : DiskM Index) =
      (liftM (Drive.sync index.log) >>= fun _ =>
        pure (index.beginSync.2.publish index.beginSync.1)) := rfl
  rw [hsteps]
  exact (Drive.follows_sync _).bind fun _ _ => follows_pure rfl

/-- So does closing an index. -/
theorem Index.follows_close {index : Index} (hpath : index.path ∈ paths)
    (hbeside : IndexLog.beside index.path ∈ paths) :
    Follows paths roots index.close fun _ => True := by
  refine (Index.follows_sync index).bind fun index' hsame => ?_
  rw [← hsame] at hpath hbeside
  exact IndexLog.follows_store hpath hbeside _

/-! ## The range and the capacity -/

section Range

variable {path : Path} (hpath : path ∈ paths)

include hpath

theorem follows_readText? : Follows paths roots (readText? path) fun _ => True := by
  refine (follows_contentsOf? hpath).bind fun contents _ => ?_
  cases contents with
  | none => exact follows_pure trivial
  | some contents =>
    dsimp only
    split
    · exact follows_pure trivial
    · exact follows_throw _

/-- To load a range follows its run on the clean disk. -/
theorem SegmentRange.follows_load : Follows paths roots (load path) fun _ => True := by
  refine (follows_readText? hpath).bind fun text _ => ?_
  cases text with
  | none => exact follows_pure trivial
  | some text =>
    dsimp only
    split
    · exact follows_pure trivial
    · exact follows_throw _

/-- So does loading a capacity. -/
theorem Capacity.follows_load? : Follows paths roots (load? path) fun _ => True := by
  refine (follows_readText? hpath).bind fun text _ => ?_
  cases text with
  | none => exact follows_pure trivial
  | some text =>
    dsimp only
    split
    · exact follows_pure trivial
    · exact follows_throw _

end Range

/-! ## The value log -/

namespace ValueLog

variable {config : Config} {log : ValueLog}

/-- The log lies where the configuration says. -/
structure Lies (config : Config) (log : ValueLog) : Prop where
  stem_eq : log.segmentStem = config.segmentStem
  rangeFile_eq : log.rangeFile = config.rangeFile
  path_eq : log.index.path = config.indexLog

/-- The segments of the log are looked for by these paths. -/
theorem Lies.segmentFile_mem (h : Lies config log) (id : UInt64) :
    log.segmentFile id ∈ config.paths := by
  rw [segmentFile, h.stem_eq]
  exact config.segmentFile_mem_paths id

/-- The range is stored as on the clean disk. -/
theorem Lies.follows_storeRange (h : Lies config log) (range : SegmentRange) :
    Follows config.paths roots (range.store log.rangeFile) fun _ => True := by
  rw [h.rangeFile_eq]
  exact follows_replaceFile (by simp [Config.paths]) (by simp [Config.paths, Config.besideRange]) _

/-- The change to the next segment follows its run on the clean disk, and the log lies where it lay. -/
theorem Lies.follows_rollOver (h : Lies config log) :
    Follows config.paths roots log.rollOver fun log' => Lies config log' := by
  refine (Drive.follows_sync _).bind fun _ _ => ?_
  split
  · exact (h.follows_storeRange _).bind fun _ _ => (follows_create (h.segmentFile_mem _)).bind
      fun _ _ => follows_pure ⟨h.stem_eq, h.rangeFile_eq, h.path_eq⟩
  · exact follows_throw _

/-- So does a record that is appended. -/
theorem Lies.follows_append (h : Lies config log) (record : Record) :
    Follows config.paths roots (log.append record) fun log' => Lies config log' := by
  unfold append
  dsimp only
  split
  · exact (follows_write _ _ _).bind fun _ _ => (Index.follows_put _ _ _).bind fun index hsame =>
      follows_pure ⟨h.stem_eq, h.rangeFile_eq, hsame.trans h.path_eq⟩
  · exact follows_throw _

/-- So does one that may have to go to the next segment. -/
theorem Lies.follows_store (h : Lies config log) (record : Record) :
    Follows config.paths roots (log.store record) fun log' => Lies config log' := by
  have hroom : Follows config.paths roots (log.makeRoom record.length) fun log' => Lies config log' := by
    unfold makeRoom
    split
    · exact h.follows_rollOver
    · exact follows_pure h
  exact hroom.bind fun log' hlog' => hlog'.follows_append record

/-- So does a barrier. -/
theorem Lies.follows_sync (h : Lies config log) :
    Follows paths roots (liftM log.sync) fun log' => Lies config log' := by
  have hsteps : (liftM log.sync : DiskM ValueLog) =
      (liftM (Drive.sync log.active.file) >>= fun _ => liftM log.index.sync >>= fun index =>
        pure { log with index }) := rfl
  rw [hsteps]
  exact (Drive.follows_sync _).bind fun _ _ => (Index.follows_sync _).bind fun index hsame =>
    follows_pure ⟨h.stem_eq, h.rangeFile_eq, hsame.trans h.path_eq⟩

/-- Closing follows its run on the clean disk. -/
theorem Lies.follows_close (h : Lies config log) :
    Follows config.paths roots log.close fun _ => True := by
  refine h.follows_sync.bind fun log' hlog' => Index.follows_close ?_ ?_ <;> rw [hlog'.path_eq]
  · simp [Config.paths]
  · simp [Config.paths, Config.besideIndex]

/-! ## Recovery -/

/-- The records of a segment are found as on the clean disk. -/
theorem Lies.follows_scanSegment (h : Lies config log) (id : UInt64) :
    Follows config.paths roots (log.scanSegment id) fun _ => True :=
  (follows_contentsOf? (h.segmentFile_mem id)).bind fun _ _ => follows_pure trivial

/-- So are the records that survive. -/
theorem Lies.follows_survivors (h : Lies config log) (segments : List UInt64) :
    Follows config.paths roots (log.survivors segments) fun _ => True := by
  refine follows_foldlM trivial fun segment _ best _ => ?_
  refine (h.follows_scanSegment segment).bind fun scan _ => ?_
  exact follows_foldlM trivial fun entry _ best _ =>
    (follows_outcome fun _ _ => trivial).bind fun _ _ => follows_pure trivial

/-- Whether a record is copied or dropped, the log stays where it is. -/
theorem Lies.follows_relocateRecord {report : Recovery} (h : Lies config log) (best : AddressMap)
    (segment : UInt64) (found : Nat × Record) :
    Follows config.paths roots (relocateRecord best segment (log, report) found) fun state =>
      Lies config state.1 := by
  refine (follows_outcome fun _ _ => trivial).bind fun address _ => ?_
  split
  · exact (h.follows_store found.2).bind fun log' hlog' => follows_pure hlog'
  · exact follows_pure h

/-- They are copied as on the clean disk. -/
theorem Lies.follows_relocate (h : Lies config log) (best : AddressMap) (segments : List UInt64) :
    Follows config.paths roots (log.relocate best segments) fun state => Lies config state.1 := by
  refine follows_foldlM h fun segment _ state hstate => ?_
  refine (hstate.follows_scanSegment segment).bind fun scan _ => ?_
  have hcopied : Follows config.paths roots (scan.records.foldlM (relocateRecord best segment) state)
      fun state => Lies config state.1 :=
    follows_foldlM hstate fun found _ _ hstate => hstate.follows_relocateRecord best segment found
  exact hcopied.bind fun state hstate => follows_pure hstate

/-- A segment is removed as on the clean disk. -/
theorem Lies.follows_removeSegment (h : Lies config log) (id : UInt64) :
    Follows config.paths roots (log.removeSegment id) fun _ => True := by
  refine follows_removeIfThere (h.segmentFile_mem id) fun drive => ?_
  have hattempt : (attempt (remove (log.segmentFile id))).run.run drive =
      (.ok ((remove (log.segmentFile id)).run.run drive).1,
        ((remove (log.segmentFile id)).run.run drive).2) := rfl
  rw [removeSegment, run_bind_of_ok hattempt]
  rcases (remove (log.segmentFile id)).run.run drive with ⟨fault | _, last⟩
  · by_cases hmissing : fault = .io .notFound
    · subst hmissing
      rfl
    · -- any other fault ends the removal
      dsimp only
      split
      · contradiction
      · exact absurd (Except.error.inj ‹_›) hmissing
      · rename_i hfault
        rw [← Except.error.inj hfault]
        split
        · rename_i hresult
          cases hresult
          exact absurd rfl hmissing
        · rfl
  · rfl

/-- The whole recovery follows its run on the clean disk. -/
theorem Lies.follows_recover (h : Lies config log) (old : SegmentRange) :
    Follows config.paths roots (log.recover old) fun state => Lies config state.1 := by
  refine (h.follows_survivors old.ids).bind fun best _ => ?_
  refine (h.follows_relocate best old.ids).bind fun ⟨log', report⟩ hlog' => ?_
  have hkept : Lies config { log' with index := log'.index.retain best.contains } :=
    ⟨hlog'.stem_eq, hlog'.rangeFile_eq, hlog'.path_eq⟩
  refine hkept.follows_sync.bind fun synced hsynced => ?_
  refine (follows_forM fun id _ => hsynced.follows_removeSegment id).bind fun _ _ => ?_
  exact (hsynced.follows_storeRange _).bind fun _ _ =>
    follows_pure ⟨hsynced.stem_eq, hsynced.rangeFile_eq, hsynced.path_eq⟩

/-! ## Opening -/

/-- The capacity is compared as on the clean disk. -/
theorem follows_checkCapacity (config : Config) :
    Follows config.paths roots (checkCapacity config) fun _ => True := by
  unfold checkCapacity
  dsimp only
  refine (Capacity.follows_load? (by simp [Config.paths])).bind fun recorded _ => ?_
  cases recorded with
  | none =>
    exact follows_replaceFile (by simp [Config.paths]) (by simp [Config.paths, Config.besideCapacity]) _
  | some recorded =>
    dsimp only
    split
    · exact follows_throw _
    · exact follows_pure trivial

/-- Opening follows its run on the clean disk. -/
theorem follows_openWith {index : Index} (hstem : config.segmentStem ∈ roots)
    (hpath : index.path = config.indexLog) :
    Follows config.paths roots (openWith config index) fun state => Lies config state.1 := by
  rw [openWith_eq]
  cases config.validate with
  | error cause => exact follows_throw _
  | ok =>
    refine (follows_makeParent hstem).bind fun _ _ => ?_
    refine (SegmentRange.follows_load (by simp [Config.paths])).bind fun old _ => ?_
    refine (follows_checkCapacity config).bind fun _ _ => ?_
    unfold openFresh
    split
    · rename_i range _
      refine (follows_replaceFile (by simp [Config.paths])
        (by simp [Config.paths, Config.besideRange]) _).bind fun _ _ => ?_
      exact (follows_create (config.segmentFile_mem_paths _)).bind fun file _ =>
        Lies.follows_recover ⟨rfl, rfl, hpath⟩ old
    · exact follows_throw _

end ValueLog

end BarrierStore
