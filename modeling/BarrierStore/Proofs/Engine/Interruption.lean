import BarrierStore.Proofs.Engine.Leaving

/-!
# Openings and closings that are interrupted

An opening and a closing write to many files, one after the other. Wherever they are interrupted, the files
say what they said in front: they are those of the same closed store.

Main statements: `Config.Stored.during_openWith` and `Engine.Holds.during_close`.
-/

namespace BarrierStore

open Drive

variable {config : Config} {start disk : Disk} {during : Disk → Prop}
  {value : Bytes → Option Bytes} {number : Bytes → Option UInt64}

namespace Config

/-- Files that select the same are those of the same closed store. -/
theorem Stored.of_preserves (h : config.Stored start value number) (hapart : config.Apart)
    (hpreserves : ∀ old, config.Openable start old → config.Preserves start old disk) :
    config.Stored disk value number := by
  obtain ⟨⟨range, hopen, hlodged, hvalue⟩, hnumber⟩ := h
  have hsame := hpreserves range hopen
  obtain ⟨range', hfirst, hrange, hvacant, hselected⟩ := hsame.exists_range
  have hlodged' := (hlodged.of_changes hsame.changes (hsame.capacity hopen.capacity)).mono hfirst
  refine ⟨⟨range', ⟨hsame.changes.wellFormed, hlodged'.room, hlodged'.capacity, hrange, hvacant⟩,
    hlodged', fun key => ?_⟩, fun key => ?_⟩
  · rw [hselected, hvalue]
  · rw [IndexLog.replayed, hsame.changes.bytesAt_eq hapart.numberLog]
    exact hnumber key

/-- So are those with another number log that says the same. -/
theorem Stored.of_numbers (h : config.Stored start value number) (hapart : config.Apart)
    (hchanges : start.Changes config.numberPlaces disk)
    (hsame : IndexLog.replayed disk config.numberLog = IndexLog.replayed start config.numberLog) :
    config.Stored disk value number := by
  obtain ⟨⟨range, hopen, hlodged, hvalue⟩, hnumber⟩ := h
  have hbytes (file : ValueFile) : config.fileBytes disk file = config.fileBytes start file :=
    fileBytes_of_changes hchanges (hapart.file file)
  refine ⟨⟨range, hopen.of_changes hchanges (hapart.file _) (hapart.file _) fun _ _ => hapart.file _,
    hlodged.of_changes hchanges (hlodged.capacity.of_changes hchanges (hapart.file _)),
    fun key => ?_⟩, fun key => ?_⟩
  · rw [indexed_congr (hbytes .index), scanned_congr fun id _ _ => hbytes (.segment id), hvalue]
  · rw [hsame, hnumber]

/-- The number log is neither the index log nor the file beside it. -/
theorem Apart.numberLog_not_mem_indexPlaces (h : config.Apart) :
    config.numberLog.place ∉ ({config.besideIndex.place, config.place .index} : Set Location) := by
  rintro (hplace | hplace)
  · exact h.numberLog (hplace ▸ .inr (.inl rfl))
  · exact h.numberLog (hplace ▸ place_mem_ownPlaces .index)

/-- Wherever an opening is interrupted, it leaves the same closed store. -/
theorem Stored.during_openWith (h : config.Stored start value number) (hseparate : config.Separate)
    (hapart : config.Apart) (hvalid : config.validate = .ok ()) :
    Achieves (Engine.openWith config) start (fun disk => config.Stored disk value number)
      (fun _ _ => True) (fun _ _ => True) := by
  obtain ⟨range, hopen, hlodged, -⟩ := h.exists_range
  rw [Engine.openWith_eq_openAt hvalid]
  refine Achieves.bind (Engine.achieves_makeParents_of_hasParent hlodged.parent h) ?_
  rintro _ _ - rfl
  refine Achieves.bind ((ValueLog.achieves_openAt hopen.wellFormed hseparate hlodged.room.parent
    fun _ hpreserves => h.of_preserves hapart hpreserves).imp (fun _ _ _ _ => trivial)
      fun _ _ _ _ => trivial) ?_
  rintro ⟨log, recovery⟩ opened hstored -
  obtain ⟨_, hopened, -⟩ := hstored.exists_range
  exact Achieves.bind ((Index.achieves_openAt hopened.wellFormed hapart.beside fun _ hchanges hsame =>
    hstored.of_numbers hapart hchanges hsame).imp (fun _ _ _ _ => trivial) fun _ _ _ _ => trivial)
      fun _ _ hstored _ => achieves_pure hstored trivial

end Config

/-! ## Closing -/

/-- Closing an index replaces its log by the compact one of all its bindings. -/
theorem Index.achieves_close (index : Index) (h : start.WellFormed)
    (hne : (IndexLog.beside index.path).place ≠ index.path.place)
    (hduring : ∀ disk, start.Changes {(IndexLog.beside index.path).place, index.path.place} disk →
      (disk.leaf index.path.place = start.leaf index.path.place ∨
        IndexLog.replayed disk index.path = index.applied ∪ index.staged) → during disk) :
    Achieves index.close start during (fun _ _ => True) (fun _ _ => True) := by
  have hsame {last : Disk} (hlast : start.Becomes start.leaf last) :
      start.Changes {(IndexLog.beside index.path).place, index.path.place} last :=
    hlast.changes fun _ _ => rfl
  refine Achieves.bind (achieves_lift (Index.meets_sync index h fun last hlast =>
    hduring last (hsame hlast) (.inl (congrFun hlast.leaf_eq _)))) ?_
  rintro _ synced - ⟨rfl, hsynced⟩
  refine (IndexLog.achieves_store hsynced.wellFormed hne _ fun last hlast hsaid =>
    hduring last ((hsame hsynced).trans hlast) ?_).imp (fun _ _ _ _ => trivial) fun _ _ _ _ => trivial
  exact hsaid.imp (fun hleaf => hleaf.trans (congrFun hsynced.leaf_eq _)) And.right

/-- The index log says what it did, or it has been replaced by these lines; other files are as they
were. -/
structure Config.Settles (config : Config) (start : Disk) (lines : List (Bytes × UInt64))
    (disk : Disk) : Prop where
  changes : start.Changes {config.besideIndex.place, config.place .index} disk
  indexed_eq : config.indexed disk = config.indexed start ∨
    config.indexed disk = AddressMap.ofEntries lines

namespace Engine

variable {engine : Engine} {origin : UInt64} {base : List (Bytes × UInt64)} {applied staged : Found}
  {counted pending : List (Bytes × UInt64)}

/-- Lines in front of those of the records make no difference. -/
theorem Holds.stored_of_settles
    (h : Holds config engine start origin base applied staged counted pending)
    (hseparate : config.Separate) (hapart : config.Apart)
    (hsettles : config.Settles start (applied ++ staged).lines disk) :
    config.Stored disk (latest (applied ++ staged).bindings) (latest (counted ++ pending)) := by
  obtain ⟨hchanges, hindexed⟩ := hsettles
  have hother {file : ValueFile} (hfile : file ≠ .index) :=
    @ValueLog.not_mem_indexPlaces config hseparate file hfile
  obtain ⟨⟨range, hopen, hlodged, hvalue⟩, hnumber⟩ := h.stored
  obtain rfl : range = engine.log.range := Option.some.inj (hopen.range_eq.symm.trans h.log.range?_eq)
  have hscanned : config.scanned disk engine.log.range = applied ++ staged := by
    rw [Config.scanned_congr fun id _ _ => Config.fileBytes_of_changes hchanges (hother (by simp)),
      ← h.log.scanned_eq, ← h.log.first_eq]
  refine ⟨⟨_, hopen.of_changes hchanges (hother (by simp)) (hother (by simp)) fun _ _ =>
    hother (by simp), hlodged.of_changes hchanges (hlodged.capacity.of_changes hchanges
      (hother (by simp))), fun key => ?_⟩, fun key => ?_⟩
  · -- the index log says what it said, or it has the lines of all records
    rcases hindexed with hsame | hsettled
    · rw [hsame, Config.scanned_congr fun id _ _ => Config.fileBytes_of_changes hchanges
        (hother (by simp)), hvalue]
    · rw [hsettled, hscanned]
      exact selected_settled [] (hscanned ▸ Config.ascending_scanned _ _ _) h.log.fits key
  · rw [IndexLog.replayed, hchanges.bytesAt_eq hapart.numberLog_not_mem_indexPlaces]
    exact hnumber key

/-- While the value log is closed, its index log is as it was, or has the lines of all records. -/
theorem Holds.achieves_closeLog
    (h : Holds config engine start origin base applied staged counted pending)
    (hseparate : config.Separate) :
    Achieves engine.log.close start (config.Settles start (applied ++ staged).lines)
      (fun _ _ => True) (fun _ _ => True) := by
  have hsame {last : Disk} (hlast : start.Becomes start.leaf last) :
      config.Settles start (applied ++ staged).lines last := by
    exact ⟨hlast.changes fun _ _ => rfl,
      .inl (Config.indexed_congr (Config.fileBytes_of_leaf_eq hlast.leaf_eq _))⟩
  -- the barrier changes nothing that is seen, and applies everything
  have hsync : Meets engine.log.sync start (config.Settles start (applied ++ staged).lines)
      fun synced disk => start.Becomes start.leaf disk ∧ synced.index = { engine.log.index with
        staged := ∅, applied := AddressMap.ofEntries (applied ++ staged).lines } := by
    rw [ValueLog.sync_eq]
    refine Meets.bind (meets_sync h.log.wellFormed _ fun _ => hsame) ?_
    rintro _ disk - hdisk
    have hagain {last : Disk} (hlast : disk.Becomes disk.leaf last) : start.Becomes start.leaf last :=
      (hdisk.trans hlast).congr hdisk.leaf_eq
    refine Meets.bind (meets_sync hdisk.wellFormed _ fun _ hlast => hsame (hagain hlast)) ?_
    rintro _ last hduring hlast
    refine meets_pure hduring ⟨hagain hlast, ?_⟩
    rw [h.log.applied_eq, h.log.staged_eq, Index.ofEntries_union, Found.lines_append]
  refine Achieves.bind (achieves_lift hsync) ?_
  rintro synced disk - ⟨hdisk, hindex⟩
  have hpath : synced.index.path = config.indexLog := by rw [hindex, h.log.path_eq]
  refine Index.achieves_close _ hdisk.wellFormed (hpath ▸ hseparate.besideIndex .index)
    fun last hlast hsaid => ?_
  rw [hpath] at hlast hsaid
  refine ⟨(hdisk.changes fun _ _ => rfl).trans hlast, hsaid.imp (fun hleaf => ?_) fun hreplayed => ?_⟩
  · rw [Config.indexed, IndexLog.replayed, Disk.bytesAt, hleaf, hdisk.leaf_eq]
    rfl
  · rw [Config.indexed, hreplayed, hindex]
    exact Std.ExtTreeMap.ext_getElem? fun {key} => by simp [Std.ExtTreeMap.getElem?_union]

/-- Wherever a closing is interrupted, it leaves a closed store with all that was written. -/
theorem Holds.during_close
    (h : Holds config engine start origin base applied staged counted pending)
    (hseparate : config.Separate) (hapart : config.Apart) :
    Achieves engine.close start (fun disk =>
      config.Stored disk (latest (applied ++ staged).bindings) (latest (counted ++ pending)))
      (fun _ _ => True) (fun _ _ => True) := by
  refine Achieves.bind ((h.achieves_closeLog hseparate).mono
    (fun disk hdisk => h.stored_of_settles hseparate hapart hdisk)
    (fun _ _ hdisk _ => hdisk.1) fun _ _ _ _ => trivial) ?_
  rintro _ disk hstored hchanges
  have hpath := h.path_eq
  have hnumbers : engine.numbers.Tracks disk counted pending :=
    h.numbers.of_changes hchanges (hpath ▸ hapart.numberLog_not_mem_indexPlaces)
  refine Index.achieves_close _ hchanges.wellFormed (hpath ▸ hapart.beside) fun last hlast hsaid => ?_
  rw [hpath] at hlast
  refine hstored.of_numbers hapart hlast ?_
  rw [← hpath]
  rcases hsaid with hleaf | hreplayed
  · rw [IndexLog.replayed, Disk.bytesAt, hleaf]
    rfl
  · rw [hreplayed, hnumbers.replayed_eq, hnumbers.applied_eq, hnumbers.staged_eq, Index.ofEntries_union]

end Engine

end BarrierStore
