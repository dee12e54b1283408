import BarrierStore.Proofs.Engine.Session

/-!
# Which configurations are safe to restart with

A store that was opened, written to and closed opens again and holds what was written, provided that its
files have names of their own: those of the logs, of the range and the capacity, of the segments, and of the
files beside them by way of which some of these are replaced. That the configuration is valid is not enough
for that. Only the two logs are compared, and a number log with the name of the file beside the index log is
gone after the first rewriting of the index log.

The module introduces:

* `Config.Unused` — none of the files of a store is there;
* `Config.HasSegmentNames` — every segment may have its name;
* `Entry`, `Engine.writeAll` — what is written to a store;
* `Engine.restart` — write, close and open again.

Main statements: `Engine.achieves_openWith_anywhere`, which leads to `Engine.Holds` from any disk, and
`Engine.lookups_of_restart`; `Engine.loses_numbers_of_shared_name` is a restart with a valid configuration
that loses a number.
-/

namespace BarrierStore

open Drive

namespace Config

/-- None of the files of a store is there. Those beside them do not count. -/
structure Unused (config : Config) (disk : Disk) : Prop where
  fileBytes_eq (file : ValueFile) : config.fileBytes disk file = none
  numberLog : disk.bytesAt config.numberLog.place = none

/-- The name of every segment is short enough, and no directory has it. -/
def HasSegmentNames (config : Config) (disk : Disk) : Prop :=
  ∀ id, disk.Admits (config.segmentFile id)

end Config

namespace Engine

variable {config : Config} {engine : Engine} {start disk : Disk}

/-! ## Opening anywhere -/

/-- Whatever directories are there, an opening that has gone well leaves an engine that holds what the
files said, as long as every segment may have its name. -/
theorem achieves_openWith_anywhere (h : start.WellFormed) (hseparate : config.Separate)
    (hapart : config.Apart) (hvalid : config.validate = .ok ()) :
    Achieves (Engine.openWith config) start (fun _ => True)
      (fun engine disk => ∀ range, config.range? start = some range → config.Vacant start range.next →
        config.HasSegmentNames disk → ∃ origin base applied counted,
          Holds config engine disk origin base applied [] counted [] ∧
          (∀ key, latest applied.bindings key =
            selectedValue (config.indexed start) (config.scanned start range) key) ∧
          ∀ key, latest counted key = (IndexLog.replayed start config.numberLog)[key]?)
      (fun _ _ => True) := by
  rw [openWith_eq_makeParents hvalid]
  refine Achieves.bind (achieves_makeParents h) ?_
  rintro _ grown - ⟨hgrows, hparents⟩
  have hbytesAt (place : Location) : grown.bytesAt place = start.bytesAt place :=
    Disk.bytesAt_of_leaf_eq hgrows.leaf_eq place
  have hbytes (file : ValueFile) : config.fileBytes grown file = config.fileBytes start file :=
    hbytesAt _
  -- each step tells which names are free, since it goes well
  refine Achieves.bind ((ValueLog.achieves_openIndex hgrows.wellFormed hseparate
    fun _ _ => trivial).imp_failed fun _ _ _ _ => trivial) ?_
  rintro index disk - ⟨hindex, hbesideIndex, hkeeps, hcapacity, hpath, hstaged, hleaf⟩
  have hparent : disk.HasParent config.segmentStem := Disk.HasParent.mono
    hkeeps.changes.becomes.keepsDirectories (hparents _ (by simp [Config.roots]))
  refine Achieves.bind ((ValueLog.achieves_openWith hkeeps.changes.wellFormed hseparate hparent
    hpath hstaged hleaf fun _ _ => trivial).imp_failed fun _ _ _ _ => trivial) ?_
  rintro ⟨log, recovery⟩ opened - ⟨-, hcapacityFile, hsaid, old, copies, hopened⟩
  have hown : grown.Changes config.ownPlaces opened := hkeeps.changes.trans hopened.changes
  refine ((achieves_openNumbers hopened hapart recovery).imp_failed fun _ _ _ _ => trivial).imp_done ?_
  rintro engine last - ⟨hlog, hbesideNumbers, hchanges, counted, hholds, hcounted⟩
    range hrange hvacant hsegments
  -- the range that was loaded is the one in the file
  obtain rfl : range = old := by
    have hloaded := hopened.range_eq
    rw [hkeeps.range?_eq, Config.range?_congr (hbytes .range), hrange] at hloaded
    exact Option.some.inj hloaded
  have hlast : disk.Changes (config.ownPlaces ∪ config.numberPlaces) last :=
    hopened.changes.trans_union hchanges
  have hall : grown.Changes (config.ownPlaces ∪ config.numberPlaces) last :=
    hown.trans_union hchanges
  have hparents' (path : Path) (hroot : path ∈ config.roots) : last.HasParent path :=
    (hparents path hroot).mono hall.becomes.keepsDirectories
  have hroom : config.HasRoom last range.next := {
    parent := hparents' _ (by simp [Config.roots])
    index := hall.admits_iff.mpr hindex
    besideIndex := hall.admits_iff.mpr hbesideIndex
    range := hlast.admits_iff.mpr hopened.admits_range
    besideRange := hlast.admits_iff.mpr hopened.admits_besideRange
    capacity := hlast.admits_iff.mpr hcapacityFile
    segment := fun id _ => hsegments id }
  have hlodged : config.Lodged last range.next := {
    room := hroom
    capacity := (hopened.capacity hsaid).of_changes hchanges (hapart.file _)
    numberLog := hchanges.admits_iff.mpr hlog
    besideNumbers := hchanges.admits_iff.mpr hbesideNumbers
    parent := hparents' }
  have hgrown : config.Vacant grown range.next := fun id hid =>
    (hbytes (.segment id)).trans (hvacant id hid)
  refine ⟨_, _, copies, counted, hholds (hkeeps.vacant hgrown) hlodged, fun key => ?_, fun key => ?_⟩
  · rw [hopened.value_eq, hkeeps.selected_eq, Config.indexed_congr (hbytes .index),
      Config.scanned_congr fun id _ _ => hbytes (.segment id)]
  · rw [hcounted, IndexLog.replayed, hown.bytesAt_eq hapart.numberLog, hbytesAt, IndexLog.replayed]

/-- An opening where no file of the store is leaves an engine that holds nothing. -/
theorem achieves_openWith_unused (h : start.WellFormed) (hunused : config.Unused start)
    (hseparate : config.Separate) (hapart : config.Apart) (hvalid : config.validate = .ok ()) :
    Achieves (Engine.openWith config) start (fun _ => True)
      (fun engine disk => config.HasSegmentNames disk → ∃ origin base applied counted,
          Holds config engine disk origin base applied [] counted [] ∧
          (∀ key, latest applied.bindings key = none) ∧ ∀ key, latest counted key = none)
      (fun _ _ => True) := by
  refine (achieves_openWith_anywhere h hseparate hapart hvalid).imp_done ?_
  rintro engine disk - hopened hsegments
  have hrange : config.range? start = some SegmentRange.empty := by
    rw [Config.range?, hunused.fileBytes_eq .range]
    rfl
  obtain ⟨origin, base, applied, counted, hholds, hvalues, hnumbers⟩ :=
    hopened _ hrange (fun id _ => hunused.fileBytes_eq (.segment id)) hsegments
  refine ⟨origin, base, applied, counted, hholds, fun key => ?_, fun key => ?_⟩
  · -- without segments there are no records to select
    have hscanned : config.scanned start SegmentRange.empty = [] := by
      rw [Config.scanned, SegmentRange.empty, SegmentRange.ids_self, List.flatMap_nil]
    rw [hvalues, hscanned, selectedValue, Option.map_eq_none_iff, Option.eq_none_iff_forall_ne_some]
    exact fun entry hentry => List.not_mem_nil (mem_of_selected hentry).1
  · rw [hnumbers, IndexLog.replayed, hunused.numberLog]
    rfl

end Engine

/-! ## Writing, closing and opening again -/

/-- What is written to a store. -/
inductive Entry where
  | put (key value : Bytes)
  | putNumber (key : Bytes) (number : UInt64)

namespace Entry

/-- The value that is written, if it is one. -/
def value? : Entry → Option (Bytes × Bytes)
  | .put key value => some (key, value)
  | .putNumber _ _ => none

/-- The number that is written, if it is one. -/
def number? : Entry → Option (Bytes × UInt64)
  | .put _ _ => none
  | .putNumber key number => some (key, number)

/-- The lengths of what is written fit their eight bytes. -/
def Small : Entry → Prop
  | .put key value => Record.Small ⟨key, value⟩
  | .putNumber _ _ => True

instance : (entry : Entry) → Decidable entry.Small
  | .put key value => inferInstanceAs (Decidable (Record.Small ⟨key, value⟩))
  | .putNumber _ _ => .isTrue trivial

end Entry

namespace Engine

/-- Write an entry. -/
def write (engine : Engine) : Entry → DiskM Engine
  | .put key value => do
    let (engine, outcome) ← engine.put key value
    match outcome with
    | .ok () => return engine
    | .error fault => throw fault
  | .putNumber key number => engine.putNumber key number

/-- Write entries in order. -/
def writeAll : (engine : Engine) → (entries : List Entry) → DiskM Engine
  | engine, [] => return engine
  | engine, entry :: rest => do
    let engine ← engine.write entry
    engine.writeAll rest

/-- Write entries, close the store and open it again. -/
def restart (config : Config) (engine : Engine) (entries : List Entry) : DiskM Engine := do
  let engine ← engine.writeAll entries
  engine.close
  Engine.openWith config

variable {config : Config} {engine : Engine} {start disk : Disk} {origin : UInt64}
  {base : List (Bytes × UInt64)} {applied staged : Found} {counted pending : List (Bytes × UInt64)}

/-- An entry is staged, unless there is no address for it. -/
theorem Holds.write (h : Holds config engine start origin base applied staged counted pending)
    (hseparate : config.Separate) (hapart : config.Apart) (hvalid : config.validate = .ok ())
    {entry : Entry} (hsmall : entry.Small) :
    Achieves (engine.write entry) start (fun _ => True)
      (fun engine' disk => ∃ staged',
        Holds config engine' disk origin base applied staged' counted (pending ++ entry.number?.toList) ∧
        staged'.bindings = staged.bindings ++ entry.value?.toList)
      (fun fault _ => fault = .arithmetic) := by
  cases entry with
  | put key value =>
    refine Achieves.bind (achieves_lift (h.put hseparate hapart hvalid hsmall)) ?_
    rintro ⟨engine', outcome⟩ disk - (rfl | ⟨rfl, address, -, hholds⟩)
    · exact achieves_throw trivial rfl
    · refine achieves_pure trivial ⟨_, (List.append_nil pending).symm ▸ hholds, ?_⟩
      rw [Found.bindings_append]
      rfl
  | putNumber key number =>
    refine achieves_lift ((h.putNumber hapart key number).imp ?_)
    rintro engine' disk - ⟨-, hholds⟩
    exact ⟨_, hholds, (List.append_nil _).symm⟩

/-- The results for a list are those for its head and those for its tail. -/
theorem filterMap_cons_eq {α β : Type} (f : α → Option β) (a : α) (rest : List α) :
    (a :: rest).filterMap f = (f a).toList ++ rest.filterMap f := by
  cases h : f a <;> simp [h]

/-- So are entries in order. -/
theorem Holds.writeAll (h : Holds config engine start origin base applied staged counted pending)
    (hseparate : config.Separate) (hapart : config.Apart) (hvalid : config.validate = .ok ())
    {entries : List Entry} (hsmall : ∀ entry ∈ entries, entry.Small) :
    Achieves (engine.writeAll entries) start (fun _ => True)
      (fun engine' disk => ∃ staged',
        Holds config engine' disk origin base applied staged' counted
          (pending ++ entries.filterMap Entry.number?) ∧
        staged'.bindings = staged.bindings ++ entries.filterMap Entry.value?)
      (fun fault _ => fault = .arithmetic) := by
  -- on the entries, for whatever is staged in front of them
  induction entries generalizing engine start staged pending with
  | nil =>
    refine achieves_pure trivial ⟨staged, ?_, (List.append_nil _).symm⟩
    rw [List.filterMap_nil, List.append_nil]
    exact h
  | cons entry rest ih =>
    refine Achieves.bind (h.write hseparate hapart hvalid (hsmall entry List.mem_cons_self)) ?_
    rintro engine' disk - ⟨staged', hholds, hbindings⟩
    refine (ih hholds fun other hother => hsmall other (List.mem_cons_of_mem _ hother)).imp_done ?_
    rintro last disk' - ⟨staged'', hholds', hbindings'⟩
    rw [List.append_assoc, ← filterMap_cons_eq] at hholds'
    rw [hbindings, List.append_assoc, ← filterMap_cons_eq] at hbindings'
    exact ⟨staged'', hholds', hbindings'⟩

/-- After a restart lookups find what was written last, and what was visible in front of it where nothing
was written. -/
theorem Holds.restart (h : Holds config engine start origin base applied [] counted [])
    (hseparate : config.Separate) (hapart : config.Apart) (hvalid : config.validate = .ok ())
    {entries : List Entry} (hsmall : ∀ entry ∈ entries, entry.Small) :
    Achieves (restart config engine entries) start (fun _ => True)
      (fun engine' disk => ∀ key,
        engine'.get disk key =
          .ok (latest (applied.bindings ++ entries.filterMap Entry.value?) key) ∧
        engine'.getNumber key = latest (counted ++ entries.filterMap Entry.number?) key)
      (fun fault _ => fault = .arithmetic) := by
  refine Achieves.bind (h.writeAll hseparate hapart hvalid hsmall) ?_
  rintro written disk - ⟨staged, hholds, hbindings⟩
  refine Achieves.bind ((hholds.close hseparate hapart).imp_failed fun _ _ _ => False.elim) ?_
  rintro _ closed - hstored
  refine (achieves_openWith hstored hseparate hapart hvalid).imp_done ?_
  rintro engine' last - ⟨_, _, applied', counted', hholds', hvalues, hnumbers⟩ key
  rw [hholds'.get_eq, hvalues, Found.bindings_append, hbindings, hholds'.getNumber_eq, hnumbers]
  exact ⟨rfl, rfl⟩

/-- A store whose files have names of their own, and whose segments may all have theirs, is safe to restart
with: once it was opened where none of its files was, then after any writes and a close it opens again,
unless it runs out of addresses, and has the last value and the last number of each key. -/
theorem lookups_of_restart {drive : Drive} (hwell : start.WellFormed) (hunused : config.Unused start)
    (hseparate : config.Separate) (hapart : config.Apart) (hvalid : config.validate = .ok ())
    (hopened : (Engine.openWith config).run.run (ofDisk start) = (.ok engine, drive))
    (hsegments : config.HasSegmentNames drive.disk)
    {entries : List Entry} (hsmall : ∀ entry ∈ entries, entry.Small) :
    ((restart config engine entries).run.run drive).1 = .error .arithmetic ∨
      ∃ engine' drive', (restart config engine entries).run.run drive = (.ok engine', drive') ∧
        ∀ key, engine'.get drive'.disk key = .ok (latest (entries.filterMap Entry.value?) key) ∧
          engine'.getNumber key = latest (entries.filterMap Entry.number?) key := by
  have hafter := (achieves_openWith_unused hwell hunused hseparate hapart hvalid).after_run_ofDisk
  rw [hopened] at hafter
  obtain ⟨origin, base, applied, counted, hholds, hvalues, hnumbers⟩ := hafter hsegments
  have hrestart := (hholds.restart hseparate hapart hvalid hsmall).after_run
  rcases hrun : (restart config engine entries).run.run drive with ⟨fault | engine', drive'⟩
  · rw [hrun] at hrestart
    exact .inl (congrArg _ hrestart)
  · rw [hrun] at hrestart
    refine .inr ⟨engine', drive', rfl, fun key => ?_⟩
    obtain ⟨hget, hnumber⟩ := hrestart key
    rw [hget, hnumber, latest_append, latest_append, hvalues, hnumbers, Option.or_none, Option.or_none]
    exact ⟨rfl, rfl⟩

/-- After an opening in an empty directory every segment may have its name. -/
theorem hasSegmentNames_of_empty {directory : Path} {settings : Config} {drive : Drive}
    (hwell : start.WellFormed) (hempty : start.EmptyDirectory directory)
    (hvalid : (settings.withDirectory directory).validate = .ok ())
    (hopened : (Engine.openWith (settings.withDirectory directory)).run.run (ofDisk start) =
      (.ok engine, drive)) (hfirst : engine.log.range.first = 0) :
    (settings.withDirectory directory).HasSegmentNames drive.disk := by
  have hafter := (achieves_openWith (stored_of_empty hwell hempty)
    (Config.separate_withDirectory settings directory) (Config.apart_withDirectory settings directory)
    hvalid).after_run_ofDisk
  rw [hopened] at hafter
  obtain ⟨origin, base, applied, counted, hholds, -⟩ := hafter
  refine fun id => hholds.lodged.room.segment id ?_
  rw [← hholds.log.first_eq, hfirst]
  exact UInt64.zero_le

/-- The defaults, with all files in one directory. -/
def plain : Config := Config.default.withDirectory Path.fresh

/-- Two values for one key, and a number. -/
def entries : List Entry := [.put [1] [10], .putNumber [1] 5, .put [1] [11]]

/-- With the defaults, two values of one key and a number are written; behind the restart the second value
is found, and the number. -/
theorem lookups_of_restart_plain : ∃ engine drive engine' drive',
    (Engine.openWith plain).run.run (ofDisk Disk.fresh) = (.ok engine, drive) ∧
      (restart plain engine entries).run.run drive = (.ok engine', drive') ∧
      ∀ key, engine'.get drive'.disk key = .ok (latest (entries.filterMap Entry.value?) key) ∧
        engine'.getNumber key = latest (entries.filterMap Entry.number?) key := by
  have hruns : ∃ engine drive, (Engine.openWith plain).run.run (ofDisk Disk.fresh) = (.ok engine, drive) ∧
      engine.log.range.first = 0 ∧
      ∃ engine' drive', (restart plain engine entries).run.run drive = (.ok engine', drive') := by
    decide +kernel
  obtain ⟨engine, drive, hopened, hfirst, engine', drive', hrestart⟩ := hruns
  have hempty := Disk.emptyDirectory_fresh
  have hvalid : plain.validate = .ok () := by decide +kernel
  have hunused : plain.Unused Disk.fresh :=
    ⟨Config.fileBytes_of_empty hempty, Config.bytesAt_of_empty hempty Config.plain_numberLog⟩
  have hsegments := hasSegmentNames_of_empty Disk.wellFormed_fresh hempty hvalid hopened
    hfirst
  have hlookups := lookups_of_restart Disk.wellFormed_fresh hunused
    (Config.separate_withDirectory _ _) (Config.apart_withDirectory _ _) hvalid hopened hsegments
    (show ∀ entry ∈ entries, entry.Small by decide)
  rcases hlookups with hfault | ⟨found, last, hfound, hall⟩
  · rw [hrestart] at hfault
    cases hfault
  · exact ⟨engine, drive, found, last, hopened, hfound, hall⟩

/-- A number log with the name of the file beside the index log is replaced by the index log. -/
theorem loses_numbers_of_shared_name :
    let config := { plain with numberLog := .ofString "data/index.log.tmp" }
    config.validate = .ok () ∧
      ((do
        let engine ← Engine.openWith config
        let engine ← restart config engine [.putNumber [1] 5]
        return engine.getNumber [1] : DiskM (Option UInt64)).run.run (ofDisk Disk.fresh)).1.toOption =
        some none := by
  decide +kernel

end Engine

end BarrierStore
