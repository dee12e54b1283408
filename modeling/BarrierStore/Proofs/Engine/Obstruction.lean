import BarrierStore.Proofs.Engine.AddressSpace
import BarrierStore.Proofs.Engine.Interruption
import BarrierStore.Proofs.ValueLog.Obstruction

/-!
# Openings and closings that fail

An opening or a closing may come to a directory that stands where one of its files is to go. It fails then,
half done; but what it has done is what it does when it is interrupted there, and so the files say what they
said in front. Once the directories are gone the store opens again, with the values and numbers that it would
have had without them, however often that has happened.

It opens unless it runs out of addresses: an opening that fails may have taken a segment.

The module introduces `Engine.Hampered`, the disks that runs and failures with directories in the way lead to.

Main statements: `Engine.Hampered.exists_stored`, `Engine.opensTo_of_hampered`; and
`Engine.failure_takes_addresses`, a failure behind which there are no addresses left.
-/

namespace BarrierStore

open Drive

variable {config : Config} {start disk blocked : Disk} {places : Set Location}
  {value : Bytes → Option Bytes} {number : Bytes → Option UInt64}

/-! ## What is looked for -/

namespace Config

/-- What the paths of a closed store need is there. -/
theorem Stored.ready (h : config.Stored start value number)
    (hbeside : config.besideCapacity = config.besideRange) :
    start.Ready config.paths {path | path ∈ config.roots} := by
  obtain ⟨range, -, hlodged, -⟩ := h.exists_range
  have hroom := hlodged.room
  refine ⟨?_, fun hpath => hlodged.parent _ hpath⟩
  rintro path ((rfl | rfl | rfl | rfl | rfl | rfl | rfl | rfl) | ⟨id, rfl⟩)
  · exact hroom.index.toReaches
  · exact hroom.besideIndex.toReaches
  · exact hroom.range.toReaches
  · exact hroom.besideRange.toReaches
  · exact hroom.capacity.toReaches
  · exact hbeside ▸ hroom.besideRange.toReaches
  · exact hlodged.numberLog.toReaches
  · exact hlodged.besideNumbers.toReaches
  · -- where the last segment in use has room for its name, those in front have
    rcases UInt64.le_total range.first id with hle | hle
    · exact (hroom.segment id hle).toReaches
    · exact (hroom.segment range.first (UInt64.le_refl _)).toReaches.segment_le hle

end Config

namespace Engine

variable {engine : Engine}

/-- To make the directories of a store follows its run on the clean disk. -/
theorem follows_makeParents :
    Follows config.paths {path | path ∈ config.roots} (makeParents config) fun _ => True := by
  have hmade (path : Path) (hpath : path ∈ config.roots) :
      Follows config.paths {path | path ∈ config.roots} (makeParent path) fun _ => True :=
    follows_makeParent hpath
  refine (hmade config.indexLog (by simp [Config.roots])).bind fun _ _ => ?_
  refine (hmade config.segmentStem (by simp [Config.roots])).bind fun _ _ => ?_
  refine (hmade config.rangeFile (by simp [Config.roots])).bind fun _ _ => ?_
  exact hmade config.numberLog (by simp [Config.roots])

/-- So does opening a store with a valid configuration. -/
theorem follows_openWith (hvalid : config.validate = .ok ()) :
    Follows config.paths {path | path ∈ config.roots} (Engine.openWith config) fun _ => True := by
  rw [openWith_eq_makeParents hvalid]
  refine follows_makeParents.bind fun _ _ => ?_
  refine (Index.follows_openAt (by simp [Config.paths])
    (by simp [Config.paths, Config.besideIndex])).bind fun index hpath => ?_
  refine (ValueLog.follows_openWith (by simp [Config.roots]) hpath).bind fun _ _ => ?_
  exact (Index.follows_openAt (by simp [Config.paths])
    (by simp [Config.paths, Config.besideNumbers])).bind fun _ _ => follows_pure trivial

/-- So does closing it. -/
theorem follows_close {roots : Set Path} (hlog : ValueLog.Lies config engine.log)
    (hnumbers : engine.numbers.path = config.numberLog) :
    Follows config.paths roots engine.close fun _ => True := by
  refine hlog.follows_close.bind fun _ _ => Index.follows_close ?_ ?_ <;> rw [hnumbers]
  · simp [Config.paths]
  · simp [Config.paths, Config.besideNumbers]

/-! ## What failures lead to -/

/-- What is left of a store that was opened on `start` first, after runs of it and failures with directories
in the way: the disk as it would be without the last failures, the places of the directories, and the
disk. -/
inductive Hampered (config : Config) (start : Disk) : Disk → Set Location → Disk → Prop
  /-- Nothing has happened. -/
  | fresh : Hampered config start start ∅ start
  /-- With no directory in the way the store was used. -/
  | left {reference disk left : Disk} : Hampered config start reference ∅ disk →
    Left config disk left → Hampered config start left ∅ left
  /-- A directory is made where nothing is. -/
  | obstructed {reference disk : Disk} {places : Set Location} {place : Location} :
    Hampered config start reference places disk → disk.node? place = none →
      Hampered config start reference (insert place places) (disk.apply (.makeDirectory place))
  /-- One of these directories is removed. -/
  | cleared {reference disk : Disk} {places : Set Location} {place : Location} :
    Hampered config start reference places disk → place ∈ places →
      Hampered config start reference (places \ {place}) (disk.apply (.remove place))
  /-- An opening has failed. -/
  | opening {reference disk : Disk} {places : Set Location} {fault : Fault} {drive : Drive} :
    Hampered config start reference places disk →
    (Engine.openWith config).run.run (ofDisk disk) = (.error fault, drive) →
      Hampered config start reference places drive.disk
  /-- Directories were made while the store was open, and then its closing has failed. -/
  | closing {reference disk : Disk} {made : List Location} {engine : Engine} {drive drive' : Drive}
    {barrier : Barrier} {past : List Effect} {fault : Fault} :
    Hampered config start reference ∅ disk → Lives config disk engine drive barrier →
    (∀ place ∈ made, drive.disk.node? place = none) →
    engine.close.run.run ⟨drive.disk.applyAll (made.map .makeDirectory), past⟩ = (.error fault, drive') →
      Hampered config start drive.disk {place | place ∈ made} drive'.disk

/-- Whatever has failed, without the directories the files say what they would say without the failures. -/
theorem Hampered.exists_stored {reference : Disk} (h : Hampered config start reference places disk)
    (hstored : config.Stored start value number) (hseparate : config.Separate) (hapart : config.Apart)
    (hvalid : config.validate = .ok ()) (hbeside : config.besideCapacity = config.besideRange) :
    ∃ value number clean, config.Stored reference value number ∧ config.Stored clean value number ∧
      clean.Obstructed places disk := by
  -- the clean disk is one that interruptions of the same runs could have left
  induction h with
  | fresh => exact ⟨value, number, start, hstored, hstored, .refl start⟩
  | left _ hleft ih =>
    obtain ⟨_, _, clean, -, hclean, hsame⟩ := ih
    obtain rfl := hsame.eq_of_empty
    obtain ⟨-, value, number, hafter⟩ := hleft.stored hclean hseparate hapart hvalid
    exact ⟨value, number, _, hafter, hafter, .refl _⟩
  | obstructed _ hvacant ih =>
    obtain ⟨value, number, clean, hreference, hclean, hblocked⟩ := ih
    exact ⟨value, number, clean, hreference, hclean, hblocked.insert (hblocked.clean_vacant hvacant)⟩
  | cleared _ hplace ih =>
    obtain ⟨value, number, clean, hreference, hclean, hblocked⟩ := ih
    exact ⟨value, number, clean, hreference, hclean, hblocked.erase hplace⟩
  | opening _ hrun ih =>
    obtain ⟨value, number, clean, hreference, hclean, hblocked⟩ := ih
    obtain ⟨_, hopen, -⟩ := hclean.exists_range
    obtain ⟨clean', hclean', hblocked'⟩ := (follows_openWith hvalid).exists_clean hblocked
      hopen.wellFormed (hclean.ready hbeside) (hclean.during_openWith hseparate hapart hvalid) []
    refine ⟨value, number, clean', hreference, hclean', ?_⟩
    rwa [show (⟨_, []⟩ : Drive) = ofDisk _ from rfl, hrun] at hblocked'
  | @closing _ _ _ _ _ _ _ past _ _ hlives hvacant hrun ih =>
    obtain ⟨_, _, clean, -, hclean, hsame⟩ := ih
    obtain rfl := hsame.eq_of_empty
    obtain ⟨_, _, applied, staged, counted, pending, hholds, -⟩ :=
      hlives.holds hclean hseparate hapart hvalid
    have hlies : ValueLog.Lies config _ :=
      ⟨hholds.log.stem_eq, hholds.log.rangeFile_eq, hholds.log.path_eq⟩
    have hblocked := (Disk.Obstructed.refl _).insertAll hvacant
    rw [Set.union_empty] at hblocked
    obtain ⟨clean', hclean', hblocked'⟩ := (follows_close hlies hholds.path_eq).exists_clean hblocked
      hholds.log.wellFormed (hholds.stored.ready hbeside) (hholds.during_close hseparate hapart) past
    rw [hrun] at hblocked'
    exact ⟨_, _, clean', hholds.stored, hclean', hblocked'⟩

/-- An opening gives these values and numbers, unless there are not enough addresses left. -/
def OpensTo (config : Config) (disk : Disk) (value : Bytes → Option Bytes)
    (number : Bytes → Option UInt64) : Prop :=
  match (Engine.openWith config).run.run (ofDisk disk) with
  | (.ok engine, last) =>
    ∀ key, engine.get last.disk key = .ok (value key) ∧ engine.getNumber key = number key
  | (.error fault, _) => fault = .arithmetic ∧ ¬ config.AffordsOpening disk

/-- A store opens to what its files hold. -/
theorem opensTo_of_stored (h : config.Stored disk value number) (hseparate : config.Separate)
    (hapart : config.Apart) (hvalid : config.validate = .ok ()) : OpensTo config disk value number := by
  obtain ⟨_, hopen, -⟩ := h.exists_range
  have hafter := (achieves_openWith h hseparate hapart hvalid).after_run_ofDisk
  have htallied := (openWith_tallied hopen.wellFormed hseparate hapart hvalid).after_run_ofDisk
  unfold OpensTo
  rcases hrun : (Engine.openWith config).run.run (ofDisk disk) with ⟨fault | engine, last⟩ <;>
    rw [hrun] at hafter htallied
  · exact ⟨hafter, fun haffords => htallied haffords hafter⟩
  · obtain ⟨_, _, _, _, hholds, hvalue, hnumber⟩ := hafter
    exact fun key => ⟨(hholds.get_eq key).trans (congrArg _ (hvalue key)),
      (hholds.getNumber_eq key).trans (hnumber key)⟩

/-- Once the directories are gone that openings and closings have failed for, however often, the store opens
with the values and numbers that it would have had without the failures, as long as there are addresses left
for what the opening copies. -/
theorem opensTo_of_hampered {base : Config} {directory : Path} {reference : Disk}
    (hwell : start.WellFormed) (hempty : start.EmptyDirectory directory)
    (hcapacity : base.capacity ≠ 0) (hinterval : base.syncInterval ≠ 0)
    (h : Hampered (base.withDirectory directory) start reference ∅ disk) : ∃ value number,
      OpensTo (base.withDirectory directory) reference value number ∧
        OpensTo (base.withDirectory directory) disk value number := by
  have hseparate := Config.separate_withDirectory base directory
  have hapart := Config.apart_withDirectory base directory
  have hvalid := Config.validate_withDirectory directory hcapacity hinterval
  have hbeside : (base.withDirectory directory).besideCapacity =
      (base.withDirectory directory).besideRange := by
    rw [Config.besideCapacity_withDirectory, Config.besideRange_withDirectory]
  obtain ⟨value, number, clean, hreference, hclean, hsame⟩ :=
    h.exists_stored (stored_of_empty hwell hempty) hseparate hapart hvalid hbeside
  obtain rfl := hsame.eq_of_empty
  exact ⟨value, number, opensTo_of_stored hreference hseparate hapart hvalid,
    opensTo_of_stored hclean hseparate hapart hvalid⟩

/-- The place of the file beside the number log. -/
def obstacle : Location := ["numbers.log.tmp".toList, "data".toList]

/-- What an opening leaves that fails for a directory there, without the directory. -/
def hamper (config : Config) (disk : Disk) : Disk :=
  ((Engine.openWith config).run.run (ofDisk (disk.apply (.makeDirectory obstacle)))).2.disk.apply
    (.remove obstacle)

set_option synthInstance.maxSize 256 in
/-- A store that holds a value and a number opens with them behind an opening that has failed in front of
the number log. -/
theorem opensTo_of_hampered_plain : ∃ reference engine last value number,
    Hampered plain Disk.fresh reference ∅ (hamper plain reference) ∧
      (Engine.openWith plain).run.run (ofDisk (hamper plain reference)) = (.ok engine, last) ∧
      value [1] = some [10] ∧ number [1] = some 5 ∧
      OpensTo plain reference value number ∧ OpensTo plain (hamper plain reference) value number := by
  have hruns : ∃ written drive, writeCovered.run.run (ofDisk Disk.fresh) = (.ok written, drive) ∧
      drive.disk.node? obstacle = none ∧
      ∃ fault failed, (Engine.openWith plain).run.run
        (ofDisk (drive.disk.apply (.makeDirectory obstacle))) = (.error fault, failed) ∧
      ∃ engine last, (Engine.openWith plain).run.run (ofDisk (failed.disk.apply (.remove obstacle))) =
          (.ok engine, last) ∧
        engine.get last.disk [1] = .ok (some [10]) ∧ engine.getNumber [1] = some 5 := by
    decide +kernel
  obtain ⟨written, drive, hsession, hvacant, fault, failed, hfails, engine, last, hopened, hget,
    hgetNumber⟩ := hruns
  have hhamper : hamper plain drive.disk = failed.disk.apply (.remove obstacle) := by
    rw [hamper, hfails]
  rw [← hhamper] at hopened
  have hleft : Hampered plain Disk.fresh drive.disk ∅ drive.disk :=
    .left .fresh (.killed (lives_writeCovered hsession))
  -- the opening fails in front of the directory, and then the directory is taken away
  have hcleared : Hampered plain Disk.fresh drive.disk ∅ (hamper plain drive.disk) := by
    have hall := Hampered.cleared (.opening (.obstructed hleft hvacant) hfails) (Set.mem_insert _ _)
    rwa [← hhamper, Set.insert_sdiff_of_mem _ (Set.mem_singleton _), Set.empty_sdiff] at hall
  obtain ⟨value, number, hreference, hagain⟩ : ∃ value number,
      OpensTo plain drive.disk value number ∧ OpensTo plain (hamper plain drive.disk) value number :=
    opensTo_of_hampered Disk.wellFormed_fresh Disk.emptyDirectory_fresh (by decide) (by decide) hcleared
  -- what the store opens with is told by a lookup
  have hlookups := hagain
  rw [OpensTo, hopened] at hlookups
  obtain ⟨hvalue, hnumber⟩ := hlookups [1]
  exact ⟨_, engine, last, value, number, hcleared, hopened, Except.ok.inj (hvalue.symm.trans hget),
    hnumber.symm.trans hgetNumber, hreference, hagain⟩

/-- With segments of half as many bytes as there are addresses, a store in which one value was written opens
again; but an opening that fails for a directory takes a segment, and behind it there are no addresses left
for the copy of that value. -/
theorem failure_takes_addresses :
    let config := halves.withDirectory Path.fresh
    let opening (disk : Disk) := ((Engine.openWith config).run.run (ofDisk disk)).1
    let left := ((do
      let engine ← Engine.openWith config
      engine.put [107] [118] : DiskM (Engine × Except Fault Unit)).run.run (ofDisk Disk.fresh)).2.disk
    (match opening left, opening (left.apply (.makeDirectory obstacle)), opening (hamper config left) with
      | .ok _, .error (.io .isADirectory), .error .arithmetic => true
      | _, _, _ => false) = true := by
  decide +kernel

end Engine

end BarrierStore
