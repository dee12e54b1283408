import BarrierStore.Proofs.Engine.Restart
import BarrierStore.Proofs.ValueLog.Tally

/-!
# What an engine opens and closes

What is counted when a value log is opened is counted when an engine is: the number log has files of its own.
When the engine is closed, both index logs are rewritten, and no other file.

Main statements: `Engine.openWith_tallied` and `Engine.Holds.close_changes`.
-/

namespace BarrierStore

open Drive

namespace ValueLog

variable {config : Config} {log : ValueLog} {start disk last : Disk} {report : Recovery}

/-- What an opening has left stays while other files change. -/
theorem Opens.of_changes (h : Opens config start log report disk) {places : Set Location}
    (hchanges : disk.Changes places last) (hfile : ∀ file, config.place file ∉ places) :
    Opens config start log report last := by
  have hbytes : ∀ file, config.fileBytes last file = config.fileBytes disk file := fun file =>
    Config.fileBytes_of_changes hchanges (hfile file)
  have hcapacity : config.capacity? last = config.capacity? disk := by
    rw [Config.capacity?, hbytes, Config.capacity?]
  obtain ⟨hsaid, old, hrange, htallied⟩ := h
  refine ⟨hcapacity.trans hsaid, old, hrange, { htallied with
    live_eq := ?_, indexed_eq := ?_, capacity_eq := fun hstart => hcapacity.trans
      (htallied.capacity_eq hstart) }⟩
  · rw [Config.scanned_congr fun id _ _ => hbytes (.segment id)]
    exact htallied.live_eq
  · rw [Config.indexed_congr (hbytes .index)]
    exact htallied.indexed_eq

end ValueLog

namespace Engine

variable {config : Config} {engine : Engine} {start : Disk} {origin : UInt64}
  {base : List (Bytes × UInt64)} {applied staged : Found} {counted pending : List (Bytes × UInt64)}

/-- To make the directories of a store does not fail for want of addresses. -/
theorem ends_makeParents (config : Config) :
    Ends (makeParents config) (fun _ => True) (· ≠ .arithmetic) := by
  have hio : ∀ cause, Fault.io cause ≠ .arithmetic := fun _ => nofun
  exact (ends_makeParent hio _).bind fun _ _ => (ends_makeParent hio _).bind fun _ _ =>
    (ends_makeParent hio _).bind fun _ _ => ends_makeParent hio _

/-- An opening takes no more addresses than its copies need, and the capacity file says its capacity
then. -/
theorem openWith_tallied (h : start.WellFormed) (hseparate : config.Separate) (hapart : config.Apart)
    (hvalid : config.validate = .ok ()) :
    Achieves (Engine.openWith config) start (fun _ => True)
      (fun engine disk => ValueLog.Opens config start engine.log engine.recovery disk)
      (fun fault _ => config.AffordsOpening start → fault ≠ .arithmetic) := by
  rw [openWith_eq_openAt hvalid]
  refine Achieves.bind (((achieves_makeParents h).and_ends (ends_makeParents config)).imp_failed
    fun _ _ _ hfault _ => hfault.2) ?_
  rintro _ grown - ⟨⟨hgrows, -⟩, -⟩
  have hbytes : ∀ file, config.fileBytes grown file = config.fileBytes start file :=
    Config.fileBytes_of_leaf_eq hgrows.leaf_eq
  have hindexed := Config.indexed_congr (hbytes .index)
  refine Achieves.bind (((ValueLog.openAt_tallied hgrows.wellFormed hseparate).and
    (ValueLog.achieves_openAt_anywhere hgrows.wellFormed hseparate)).mono (fun _ _ => trivial)
      (fun _ _ _ hboth => hboth) ?_) ?_
  · exact fun fault _ _ hfault haffords => hfault.1 (ValueLog.affordsOpening_congr
      (Disk.Reaches.mono hgrows.keepsDirectories) hindexed (fun file _ _ => hbytes file) haffords)
  rintro ⟨log, recovery⟩ opened - ⟨hopens, -, _, _, _, -, hserves, -⟩
  -- the numeric index has no file in common with the value log
  refine Achieves.bind (((Index.achieves_openAt hserves.wellFormed hapart.beside
    fun _ _ _ => trivial).and_ends (ValueLog.ends_openIndex _)).imp_failed
      fun _ _ _ hfault _ => hfault.2) ?_
  rintro numbers last - ⟨⟨-, -, hchanges, -⟩, -⟩
  have hopens' : ValueLog.Opens config start log recovery opened := by
    refine hopens.of_bytes hindexed (fun file _ _ => hbytes file) fun hsaid => ?_
    rw [Config.capacity?, hbytes]
    exact hsaid
  exact achieves_pure trivial (hopens'.of_changes hchanges hapart.file)

namespace Holds

/-- What is scanned in the segments of an open engine are its records. -/
theorem scanned_eq (h : Holds config engine start origin base applied staged counted pending) :
    config.scanned start engine.log.range = applied ++ staged := by
  rw [← h.log.scanned_eq, ← h.log.first_eq]

/-- Closing an engine writes to the two index logs only. -/
theorem close_changes (h : Holds config engine start origin base applied staged counted pending)
    (hseparate : config.Separate) (hapart : config.Apart) :
    Achieves engine.close start (fun _ => True)
      (fun _ disk => start.Changes
        ({config.besideIndex.place, config.place .index} ∪ config.numberPlaces) disk)
      (fun _ _ => False) := by
  refine Achieves.bind (h.log.close hseparate h.lodged.room.index h.lodged.room.besideIndex) ?_
  rintro _ disk - ⟨hchanges, -⟩
  have hplaces : engine.numbers.path.place ∉
      ({config.besideIndex.place, config.place .index} : Set Location) := by
    rw [h.path_eq]
    rintro (hplace | hplace)
    · exact hapart.numberLog (.inr (.inl hplace))
    · exact hapart.numberLog (hplace ▸ Config.place_mem_ownPlaces .index)
  have hbeside : (IndexLog.beside engine.numbers.path).place ≠ engine.numbers.path.place :=
    h.path_eq ▸ hapart.beside
  refine ((h.numbers.of_changes hchanges hplaces).close hchanges.wellFormed hbeside
    (hchanges.admits_iff.mpr (h.path_eq ▸ h.lodged.numberLog))
    (hchanges.admits_iff.mpr (h.path_eq ▸ h.lodged.besideNumbers))).imp_done ?_
  rintro _ last - ⟨hchanges', -⟩
  rw [h.path_eq] at hchanges'
  exact hchanges.trans_union hchanges'

end Holds

end Engine

end BarrierStore
