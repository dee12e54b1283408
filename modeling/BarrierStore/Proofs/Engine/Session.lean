import BarrierStore.Engine
import BarrierStore.Proofs.Config.DataDirectory
import BarrierStore.Proofs.ValueLog.Opening

/-!
# The life of an engine

An engine is a value log and an index for numbers, each with its own files. What one of them does to the
disk the other does not see, so an engine keeps step with its files as soon as both parts do.

The module introduces:

* `Config.Lodged` — there is room for all files of a store;
* `Config.Stored` — what the files of a store say while it is closed: a value or none for each key,
  and a number or none;
* `Engine.Holds` — an open engine and its files hold these records and these numbers.

Main statements: `Engine.achieves_openWith`, which leads from `Stored` to `Holds`, `Holds.put`,
`Holds.putNumber` and `Holds.sync`, which stay there, and `Holds.close` and `Holds.stored`, which lead
back.
-/

namespace BarrierStore

open Drive

namespace Config

/-- The paths whose directories an engine makes. -/
def roots (config : Config) : List Path :=
  [config.indexLog, config.segmentStem, config.rangeFile, config.numberLog]

/-- There is room for all files of a store whose segments in use start at `first`. -/
structure Lodged (config : Config) (disk : Disk) (first : UInt64) : Prop where
  room : config.HasRoom disk first
  capacity : config.HasCapacity disk
  numberLog : disk.Admits config.numberLog
  besideNumbers : disk.Admits config.besideNumbers
  parent (path : Path) : path ∈ config.roots → disk.HasParent path

variable {config : Config} {start disk : Disk}

/-- A store that has its place from a segment on has it from a later one on. -/
theorem Lodged.mono {first first' : UInt64} (h : config.Lodged disk first) (hle : first ≤ first') :
    config.Lodged disk first' :=
  { h with room := h.room.mono hle }

/-- Files may change in that place, as long as the capacity stays. -/
theorem Lodged.of_changes {first : UInt64} {places : Set Location} (h : config.Lodged start first)
    (hchanges : start.Changes places disk) (hcapacity : config.HasCapacity disk) :
    config.Lodged disk first where
  room := h.room.of_changes hchanges
  capacity := hcapacity
  numberLog := hchanges.admits_iff.mpr h.numberLog
  besideNumbers := hchanges.admits_iff.mpr h.besideNumbers
  parent path hpath := (h.parent path hpath).mono hchanges.becomes.keepsDirectories

/-- What the files of a closed store say. -/
structure Stored (config : Config) (disk : Disk) (value : Bytes → Option Bytes)
    (number : Bytes → Option UInt64) : Prop where
  exists_range : ∃ range, config.Openable disk range ∧ config.Lodged disk range.first ∧ ∀ key,
    selectedValue (config.indexed disk) (config.scanned disk range) key = value key
  number_eq (key : Bytes) : (IndexLog.replayed disk config.numberLog)[key]? = number key

end Config

namespace Engine

/-- An open engine and its files hold these records, the visible ones in front, and these numbers. -/
structure Holds (config : Config) (engine : Engine) (disk : Disk) (origin : UInt64)
    (base : List (Bytes × UInt64)) (applied staged : Found)
    (counted pending : List (Bytes × UInt64)) : Prop where
  log : engine.log.Serves config disk origin base applied staged
  numbers : engine.numbers.Tracks disk counted pending
  path_eq : engine.numbers.path = config.numberLog
  lodged : config.Lodged disk origin
  vacant : config.Vacant disk engine.log.range.next

variable {config : Config} {engine : Engine} {start disk : Disk} {origin : UInt64}
  {base : List (Bytes × UInt64)} {applied staged : Found} {counted pending : List (Bytes × UInt64)}

/-! ## Opening -/

/-- The directories of a store, in the order in which they are made. -/
def makeParents (config : Config) : DiskM Unit := do
  makeParent config.indexLog
  makeParent config.segmentStem
  makeParent config.rangeFile
  makeParent config.numberLog

/-- An engine opens its directories, its value log and its number log. -/
theorem openWith_eq_openAt (h : config.validate = .ok ()) :
    Engine.openWith config = (do
      makeParents config
      let (log, recovery) ← ValueLog.openAt config
      let numbers ← Index.openAt config.numberLog
      return { config, log, numbers, recovery }) := by
  unfold Engine.openWith
  rw [h]
  simp only [makeParents, List.forIn_cons, List.forIn_nil, bind_assoc, pure_bind]

/-- The same with the value log opened over its index. -/
theorem openWith_eq_makeParents (h : config.validate = .ok ()) :
    Engine.openWith config = (do
      makeParents config
      let index ← Index.openAt config.indexLog
      let (log, recovery) ← ValueLog.openWith config index
      let numbers ← Index.openAt config.numberLog
      return { config, log, numbers, recovery }) := by
  rw [openWith_eq_openAt h]
  simp only [ValueLog.openAt, bind_assoc]

/-- Directories that are there are found. -/
theorem achieves_makeParents_of_hasParent {during : Disk → Prop} {failed : Fault → Disk → Prop}
    (h : ∀ path ∈ config.roots, start.HasParent path) (hbefore : during start) :
    Achieves (makeParents config) start during (fun _ disk => start = disk) failed := by
  have hmade (path : Path) (hpath : path ∈ config.roots) :
      Achieves (makeParent path) start during (fun _ disk => start = disk) failed :=
    achieves_makeParent path (h path hpath) hbefore
  refine Achieves.bind (hmade config.indexLog (by simp [Config.roots])) ?_
  rintro _ _ - rfl
  refine Achieves.bind (hmade config.segmentStem (by simp [Config.roots])) ?_
  rintro _ _ - rfl
  refine Achieves.bind (hmade config.rangeFile (by simp [Config.roots])) ?_
  rintro _ _ - rfl
  exact hmade config.numberLog (by simp [Config.roots])

/-- Directories that were made are there. -/
theorem achieves_makeParents (h : start.WellFormed) :
    Achieves (makeParents config) start (fun _ => True)
      (fun _ disk => start.Grows disk ∧ ∀ path ∈ config.roots, disk.HasParent path)
      (fun _ _ => True) := by
  have hmake (path : Path) {disk : Disk} (hwell : disk.WellFormed) :
      Achieves (makeParent path) disk (fun _ => True)
        (fun _ last => disk.Grows last ∧ last.HasParent path) (fun _ _ => True) :=
    (achieves_makeParent_anywhere path hwell).mono (fun _ _ => trivial)
      (fun _ _ hgrows hparent => ⟨hgrows, hparent⟩) fun _ _ _ _ => trivial
  refine Achieves.bind (hmake config.indexLog h) ?_
  rintro _ first - ⟨hfirst, hindex⟩
  refine Achieves.bind (hmake config.segmentStem hfirst.wellFormed) ?_
  rintro _ second - ⟨hsecond, hstem⟩
  refine Achieves.bind (hmake config.rangeFile hsecond.wellFormed) ?_
  rintro _ third - ⟨hthird, hrange⟩
  refine (hmake config.numberLog hthird.wellFormed).imp_done ?_
  rintro _ last - ⟨hlast, hnumbers⟩
  -- those that were made earlier stay
  refine ⟨hfirst.trans (hsecond.trans (hthird.trans hlast)), fun path hpath => ?_⟩
  simp only [Config.roots, List.mem_cons, List.not_mem_nil, or_false] at hpath
  rcases hpath with rfl | rfl | rfl | rfl
  · exact hindex.mono (hsecond.trans (hthird.trans hlast)).keepsDirectories
  · exact hstem.mono (hthird.trans hlast).keepsDirectories
  · exact hrange.mono hlast.keepsDirectories
  · exact hnumbers

/-- The number log opens behind a value log, and the engine holds what both have found as long as there is
room for its files. -/
theorem achieves_openNumbers {middle : Disk} {old : SegmentRange} {log : ValueLog} {copies : Found}
    (h : ValueLog.Opened config middle old base log copies start) (hapart : config.Apart)
    (recovery : Recovery) :
    Achieves (do
        let numbers ← Index.openAt config.numberLog
        return (⟨config, log, numbers, recovery⟩ : Engine)) start (fun _ => True)
      (fun engine disk => start.Admits config.numberLog ∧ start.Admits config.besideNumbers ∧
        start.Changes config.numberPlaces disk ∧ ∃ counted,
          (config.Vacant middle old.next → config.Lodged disk old.next →
            Holds config engine disk old.next base copies [] counted []) ∧
          ∀ key, latest counted key = (IndexLog.replayed start config.numberLog)[key]?)
      (fun _ _ => ¬ (start.Admits config.numberLog ∧ start.Admits config.besideNumbers)) := by
  refine Achieves.bind ((Index.achieves_openAt h.wellFormed hapart.beside
    fun _ _ _ => trivial).imp_failed fun _ _ _ hrefused => hrefused.2) ?_
  rintro numbers disk - ⟨hlog, hbeside, hchanges, hpath, hstaged, happlied, hleaf⟩
  rw [← hpath] at hleaf
  refine achieves_pure trivial ⟨hlog, hbeside, hchanges, numbers.applied.toList, ?_, fun key => ?_⟩
  · -- the value log has no file in common with the number log
    exact fun hvacant hlodged => ⟨h.toServes.of_changes hchanges hapart.file,
      .of_opened hstaged hleaf, hpath, hlodged,
      (h.vacant hvacant).of_changes hchanges fun _ _ => hapart.file _⟩
  · rw [← getElem?_ofEntries, Index.ofEntries_toList, happlied]

/-- A store that is closed opens, unless it runs out of addresses, and then holds what its files
said. -/
theorem achieves_openWith {value : Bytes → Option Bytes} {number : Bytes → Option UInt64}
    (h : config.Stored start value number) (hseparate : config.Separate) (hapart : config.Apart)
    (hvalid : config.validate = .ok ()) :
    Achieves (Engine.openWith config) start (fun _ => True)
      (fun engine disk => ∃ origin base applied counted,
        Holds config engine disk origin base applied [] counted [] ∧
          (∀ key, latest applied.bindings key = value key) ∧
          ∀ key, latest counted key = number key)
      (fun fault _ => fault = .arithmetic) := by
  obtain ⟨range, hopen, hlodged, hvalue⟩ := h.exists_range
  rw [openWith_eq_makeParents hvalid]
  refine Achieves.bind (achieves_makeParents_of_hasParent hlodged.parent trivial) ?_
  rintro _ _ - rfl
  -- the value log opens on the files that it left
  refine Achieves.bind ((ValueLog.achieves_openIndex hopen.wellFormed hseparate
    fun _ _ => trivial).imp_failed ?_) ?_
  · rintro fault _ - hrefused
    exact absurd ⟨hopen.room.index, hopen.room.besideIndex⟩ hrefused
  rintro index disk - ⟨-, -, hkeeps, -, hpath, hstaged, hleaf⟩
  have hopen' := hkeeps.openable hopen
  refine Achieves.bind ((ValueLog.achieves_openWith hopen'.wellFormed hseparate hopen'.room.parent
    hpath hstaged hleaf fun _ _ => trivial).imp_failed ?_) ?_
  · exact fun fault _ _ hfault => hfault hvalid ⟨range, hopen'⟩
  rintro ⟨log, recovery⟩ opened - ⟨-, -, -, old, copies, hopened⟩
  obtain rfl : range = old := Option.some.inj (hopen'.range_eq.symm.trans hopened.range_eq)
  have hown : start.Changes config.ownPlaces opened := hkeeps.changes.trans hopened.changes
  have hlodged' := (hlodged.of_changes hown (hopened.capacity hopen'.capacity)).mono hopen.order
  -- the number log was not touched by that
  refine (achieves_openNumbers hopened hapart recovery).imp ?_ ?_
  · rintro engine last - ⟨-, -, hchanges, counted, hholds, hcounted⟩
    refine ⟨_, _, copies, counted, hholds hopen'.vacant
      (hlodged'.of_changes hchanges (hlodged'.capacity.of_changes hchanges (hapart.file _))),
      fun key => ?_, fun key => ?_⟩
    · rw [hopened.value_eq, hkeeps.selected_eq, hvalue]
    · rw [hcounted, IndexLog.replayed, hown.bytesAt_eq hapart.numberLog]
      exact h.number_eq key
  · rintro fault _ - hrefused
    exact absurd ⟨hlodged'.numberLog, hlodged'.besideNumbers⟩ hrefused

/-! ## While it is open -/

namespace Holds

/-- A lookup finds the value of the last barrier, and never fails. -/
theorem get_eq (h : Holds config engine start origin base applied staged counted pending)
    (key : Bytes) : engine.get start key = .ok (latest applied.bindings key) :=
  h.log.get_eq key

/-- The number of a key is the last one that was made visible. -/
theorem getNumber_eq (h : Holds config engine start origin base applied staged counted pending)
    (key : Bytes) : engine.getNumber key = latest counted key :=
  h.numbers.find?_eq key

/-- A value is staged, unless there is no address for it. -/
theorem put (h : Holds config engine start origin base applied staged counted pending)
    (hseparate : config.Separate) (hapart : config.Apart) (hvalid : config.validate = .ok ())
    {key value : Bytes} (hsmall : Record.Small ⟨key, value⟩) :
    Meets (engine.put key value) start (fun _ => True) fun (engine', outcome) disk =>
      outcome = .error .arithmetic ∨ outcome = .ok () ∧ ∃ address,
        engine.log.range.next ≤ engine'.log.range.next ∧
        Holds config engine' disk origin base applied (staged ++ [(address, ⟨key, value⟩)])
          counted pending := by
  have hroom := h.lodged.room.mono h.log.origin_le_next
  refine Meets.bind (h.log.put hseparate (ValueLog.capacity_ne_of_validate hvalid) hroom hsmall) ?_
  rintro ⟨log, outcome⟩ disk - (hfault | ⟨hdone, address, hnext, hchanges, hvacant, hserves⟩)
  · exact meets_pure trivial (.inl hfault)
  have hnumbers : config.numberLog.place ∉ config.sessionPlaces origin := fun hplace =>
    hapart.numberLog (Config.sessionPlaces_subset origin hplace)
  have hcapacity : config.HasCapacity disk := h.lodged.capacity.of_changes hchanges
    (hseparate.not_mem_sessionPlaces (by simp) (by simp) (by simp))
  refine meets_pure trivial (.inr ⟨hdone, address, hnext, hserves, ?_, h.path_eq,
    h.lodged.of_changes hchanges hcapacity, hvacant h.vacant⟩)
  exact h.numbers.of_changes hchanges (h.path_eq ▸ hnumbers)

/-- A number is staged. -/
theorem putNumber (h : Holds config engine start origin base applied staged counted pending)
    (hapart : config.Apart) (key : Bytes) (number : UInt64) :
    Meets (engine.putNumber key number) start (fun _ => True) fun engine' disk =>
      engine'.log = engine.log ∧
        Holds config engine' disk origin base applied staged counted (pending ++ [(key, number)]) := by
  refine Meets.bind (h.numbers.put h.log.wellFormed key number) ?_
  rintro numbers disk - ⟨hpath, -, hchanges, htracks⟩
  rw [h.path_eq] at hpath hchanges
  have hfile : ∀ file, config.place file ∉ ({config.numberLog.place} : Set Location) :=
    fun file hplace => hapart.file file (.inr hplace)
  exact meets_pure trivial ⟨rfl, h.log.of_changes hchanges hfile, htracks, hpath,
    h.lodged.of_changes hchanges (h.lodged.capacity.of_changes hchanges (hfile _)),
    h.vacant.of_changes hchanges fun _ _ => hfile _⟩

/-- A barrier makes all values and numbers visible. -/
theorem sync (h : Holds config engine start origin base applied staged counted pending) :
    Meets engine.sync start (fun _ => True) fun engine' disk =>
      Holds config engine' disk origin base (applied ++ staged) [] (counted ++ pending) [] := by
  refine Meets.bind h.log.sync ?_
  rintro log disk - ⟨-, hrange, -, hsame, hserves⟩
  have hchanges : start.Changes ∅ disk := hsame.changes fun _ _ => rfl
  have hnumbers := h.numbers.of_changes hchanges (Set.notMem_empty _)
  refine Meets.bind (hnumbers.sync hsame.wellFormed) ?_
  rintro numbers last - ⟨hpath, -, hsame', htracks⟩
  have hchanges' : disk.Changes ∅ last := hsame'.changes fun _ _ => rfl
  have hall := hchanges.trans hchanges'
  exact meets_pure trivial ⟨hserves.of_changes hchanges' fun _ => Set.notMem_empty _, htracks,
    hpath.trans h.path_eq, h.lodged.of_changes hall (h.lodged.capacity.of_changes hall
      (Set.notMem_empty _)), hrange ▸ h.vacant.of_changes hall fun _ _ => Set.notMem_empty _⟩

/-! ## Closing -/

/-- The files of an open engine say what it holds, visible or not. -/
theorem stored (h : Holds config engine start origin base applied staged counted pending) :
    config.Stored start (latest (applied ++ staged).bindings) (latest (counted ++ pending)) where
  exists_range := by
    have hlodged : config.Lodged start engine.log.range.first := h.log.first_eq ▸ h.lodged
    exact ⟨engine.log.range, ⟨h.log.wellFormed, hlodged.room, hlodged.capacity, h.log.range?_eq,
      h.vacant⟩, hlodged, fun key => (h.log.selected_eq key).2⟩
  number_eq key := by
    rw [← h.path_eq, h.numbers.replayed_eq, getElem?_ofEntries]

/-- Closing makes everything visible and compacts both index logs, which changes nothing that they
say. -/
theorem close (h : Holds config engine start origin base applied staged counted pending)
    (hseparate : config.Separate) (hapart : config.Apart) :
    Achieves engine.close start (fun _ => True)
      (fun _ disk => config.Stored disk (latest (applied ++ staged).bindings)
        (latest (counted ++ pending)))
      (fun _ _ => False) := by
  refine Achieves.bind (h.log.close hseparate h.lodged.room.index h.lodged.room.besideIndex) ?_
  rintro _ disk - ⟨hchanges, hrange, hselected⟩
  -- closing the value log leaves the number log alone, and the other way round
  have hplaces : ({config.besideIndex.place, config.place .index} : Set Location) ⊆
      config.ownPlaces := by
    rintro place (rfl | rfl)
    · exact .inr (.inl rfl)
    · exact Config.place_mem_ownPlaces .index
  have hlodged : config.Lodged disk origin := h.lodged.of_changes hchanges
    (h.lodged.capacity.of_changes hchanges (ValueLog.not_mem_indexPlaces hseparate (by simp)))
  have hnumbers := h.numbers.of_changes hchanges fun hplace =>
    hapart.numberLog (hplaces (h.path_eq ▸ hplace))
  have hbeside : (IndexLog.beside engine.numbers.path).place ≠ engine.numbers.path.place :=
    h.path_eq ▸ hapart.beside
  refine (hnumbers.close hchanges.wellFormed hbeside (h.path_eq ▸ hlodged.numberLog)
    (h.path_eq ▸ hlodged.besideNumbers)).imp_done ?_
  rintro _ last - ⟨hchanges', hreplayed⟩
  rw [h.path_eq] at hchanges' hreplayed
  have hbytes : ∀ file, config.fileBytes last file = config.fileBytes disk file := fun file =>
    Config.fileBytes_of_changes hchanges' (hapart.file file)
  have hlodged' : config.Lodged last engine.log.range.first := h.log.first_eq ▸
    hlodged.of_changes hchanges' (hlodged.capacity.of_changes hchanges' (hapart.file _))
  have hvacant : config.Vacant disk engine.log.range.next :=
    h.vacant.of_changes hchanges fun _ _ => ValueLog.not_mem_indexPlaces hseparate (by simp)
  refine ⟨⟨engine.log.range, ⟨hchanges'.wellFormed, hlodged'.room, hlodged'.capacity, ?_, ?_⟩,
    hlodged', fun key => ?_⟩, fun key => ?_⟩
  · rw [Config.range?_congr (hbytes .range), hrange]
  · exact hvacant.of_changes hchanges' fun _ _ => hapart.file _
  · rw [Config.indexed_congr (hbytes .index),
      Config.scanned_congr fun id _ _ => hbytes (.segment id)]
    exact hselected key
  · rw [hreplayed, getElem?_ofEntries]

end Holds

/-! ## In an empty directory -/

/-- An empty directory is a closed store without values and numbers. -/
theorem stored_of_empty {base : Config} {directory : Path} (h : start.WellFormed)
    (hempty : start.EmptyDirectory directory) :
    (base.withDirectory directory).Stored start (fun _ => none) fun _ => none where
  exists_range := by
    have hbytes := @Config.fileBytes_of_empty base directory start hempty
    have hopen := @Config.openable_of_empty start base directory h hempty
    refine ⟨SegmentRange.empty, hopen, ⟨hopen.room, hopen.capacity, ?_, ?_, fun path hpath => ?_⟩,
      fun key => ?_⟩
    · exact Config.admits_of_empty hempty Config.plain_numberLog
    · rw [Config.besideNumbers_withDirectory]
      exact Config.admits_of_empty hempty Config.plain_besideNumbers
    · have hparent : ∀ {name}, Path.Plain name → start.HasParent (directory.join ⟨name⟩) :=
        fun hname => Config.hasParent_join hname hname (Config.admits_of_empty hempty hname).toReaches
      simp only [Config.roots, List.mem_cons, List.not_mem_nil, or_false] at hpath
      rcases hpath with rfl | rfl | rfl | rfl
      · exact hparent (ValueFile.plain_name .index)
      · exact hopen.room.parent
      · exact hparent (ValueFile.plain_name .range)
      · exact hparent Config.plain_numberLog
    · -- without segments there are no records to select
      have hscanned : (base.withDirectory directory).scanned start SegmentRange.empty = [] := by
        rw [Config.scanned, SegmentRange.empty, SegmentRange.ids_self, List.flatMap_nil]
      rw [hscanned, selectedValue, Option.map_eq_none_iff, Option.eq_none_iff_forall_ne_some]
      exact fun entry hentry => List.not_mem_nil (mem_of_selected hentry).1
  number_eq key := by
    have hbytes : start.bytesAt (base.withDirectory directory).numberLog.place = none :=
      Config.bytesAt_of_empty hempty Config.plain_numberLog
    rw [IndexLog.replayed, hbytes]
    rfl

end Engine

end BarrierStore
