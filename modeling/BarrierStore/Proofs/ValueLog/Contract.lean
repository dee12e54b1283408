import BarrierStore.Proofs.ValueLog.Tally

/-!
# What opening a value log promises

The index log says of each key how far to look, the segments say what is there. An opening that goes
well serves, for each key, the value of the record with the greatest address that the index log admits,
whatever else the files hold. And it does not matter how often an opening was interrupted before.

The module introduces:

* `Config.candidates` — the records of a key that the index log admits;
* `ValueLog.Interrupted` — what is left on a disk after interrupted openings, any number of them.

Main statements: `ValueLog.get_of_openAt` and `ValueLog.get_of_interrupted`. Both are applied to
`ValueLog.damagedDisk`, a directory with a record that was lost and a torn segment.
-/

namespace BarrierStore

open Drive

/-- The records of a key in the segments of a range whose addresses are not beyond the one that the
index log has for the key. -/
def Config.candidates (config : Config) (disk : Disk) (range : SegmentRange) (key : Bytes) :
    Set (Nat × Record) :=
  {entry | entry ∈ config.scanned disk range ∧ entry.2.key = key ∧
    ∃ address, (config.indexed disk)[key]? = some address ∧ entry.1 ≤ address.toNat}

variable {config : Config} {disk : Disk} {range : SegmentRange} {key : Bytes}

/-- What the index log selects is the candidate with the greatest address. -/
theorem selected_eq_some_iff {entry : Nat × Record} :
    selected (config.indexed disk) (config.scanned disk range) key = some entry ↔
      entry ∈ config.candidates disk range key ∧
        ∀ other ∈ config.candidates disk range key, other.1 ≤ entry.1 := by
  have hascending := Config.ascending_scanned config disk range
  rw [selected]
  constructor
  · intro hselected
    obtain ⟨address, haddress, hnewest⟩ := Option.bind_eq_some_iff.mp hselected
    obtain ⟨hmem, hkey, hle, hgreatest⟩ := (newest_eq_some_iff hascending).mp hnewest
    refine ⟨⟨hmem, hkey, address, haddress, hle⟩, ?_⟩
    rintro other ⟨hother, hkey', address', haddress', hle'⟩
    obtain rfl := Option.some.inj (haddress.symm.trans haddress')
    exact hgreatest other hother hkey' hle'
  · rintro ⟨⟨hmem, hkey, address, haddress, hle⟩, hgreatest⟩
    refine Option.bind_eq_some_iff.mpr ⟨address, haddress, (newest_eq_some_iff hascending).mpr
      ⟨hmem, hkey, hle, fun other hother hkey' hle' => ?_⟩⟩
    exact hgreatest other ⟨hother, hkey', address, haddress, hle'⟩

/-- The index log selects nothing exactly if there is no candidate. -/
theorem selected_eq_none_iff :
    selected (config.indexed disk) (config.scanned disk range) key = none ↔
      config.candidates disk range key = ∅ := by
  rw [selected, Option.bind_eq_none_iff, Set.eq_empty_iff_forall_notMem]
  constructor
  · rintro hnone entry ⟨hmem, hkey, address, haddress, hle⟩
    have hbeyond := newest_eq_none_iff.mp (hnone address haddress) entry hmem hkey
    omega
  · intro hempty address haddress
    refine newest_eq_none_iff.mpr fun entry hmem hkey => Nat.lt_of_not_le fun hle => ?_
    exact hempty entry ⟨hmem, hkey, address, haddress, hle⟩

namespace ValueLog

/-- The visible keys of an open log are those that have a visible binding. -/
theorem Serves.find?_eq_none {log : ValueLog} {origin : UInt64} {base : List (Bytes × UInt64)}
    {applied staged : Found} (h : log.Serves config disk origin base applied staged)
    (hnone : latest applied.bindings key = none) : log.find? key = none := by
  rw [find?, Index.find?, h.applied_eq, getElem?_ofEntries, Found.latest_lines]
  rw [Found.latest_bindings, Option.map_eq_none_iff] at hnone
  rw [hnone]
  rfl

/-- Whatever the index log and the segments hold, an opening that has gone well serves for each key the
value of the candidate with the greatest address, and has forgotten the keys without candidates. So no
lookup fails. -/
theorem get_of_openAt {drive last : Drive} {log : ValueLog} {report : Recovery}
    (hwell : drive.disk.WellFormed) (hseparate : config.Separate)
    (hrun : (openAt config).run.run drive = (.ok (log, report), last)) :
    ∃ range, config.range? drive.disk = some range ∧ ∀ key,
      ((config.candidates drive.disk range key).Nonempty →
        ∃ entry ∈ config.candidates drive.disk range key,
          (∀ other ∈ config.candidates drive.disk range key, other.1 ≤ entry.1) ∧
            log.get last.disk key = .ok (some entry.2.value)) ∧
      (config.candidates drive.disk range key = ∅ →
        log.find? key = none ∧ log.get last.disk key = .ok none) ∧
      ∃ value, log.get last.disk key = .ok value := by
  have hafter := (achieves_openAt_anywhere hwell hseparate).after_run
  rw [hrun] at hafter
  obtain ⟨-, old, base, copies, hrange, hserves, hvalue⟩ := hafter
  refine ⟨old, hrange, fun key => ⟨fun ⟨found, hfound⟩ => ?_, fun hempty => ?_,
    _, hserves.get_eq key⟩⟩
  · cases hselected : selected (config.indexed drive.disk) (config.scanned drive.disk old) key with
    | none => exact absurd hfound (selected_eq_none_iff.mp hselected ▸ Set.notMem_empty _)
    | some entry =>
      obtain ⟨hentry, hgreatest⟩ := selected_eq_some_iff.mp hselected
      refine ⟨entry, hentry, hgreatest, ?_⟩
      rw [hserves.get_eq, hvalue, selectedValue, hselected]
      rfl
  · have hnone : latest copies.bindings key = none := by
      rw [hvalue, selectedValue, selected_eq_none_iff.mpr hempty]
      rfl
    exact ⟨hserves.find?_eq_none hnone, by rw [hserves.get_eq, hnone]⟩

/-- A data directory whose index log has lost the record that it points to: the segment has two older
records of the key, and half of another one. -/
def damagedDisk : Disk :=
  Disk.empty.applyAll [
    .makeDirectory ["d".toList],
    .create ["index.log".toList, "d".toList],
    .write 0 0 (IndexLog.encodeEntries [([107], 40)]),
    .create ["segments.meta".toList, "d".toList],
    .write 1 0 (Utf8.encode (SegmentRange.encode ⟨0, 1⟩)),
    .create ["segment_0".toList, "d".toList],
    .write 2 0 (Record.encode ⟨[107], [1]⟩ ++ Record.encode ⟨[107], [2]⟩ ++ [0, 0, 1])]

/-- The configuration of that directory. -/
def damagedConfig : Config :=
  Config.withDirectory { Config.default with capacity := 64 } (.ofString "d")

/-- A lookup on that disk finds the newer one of the two whole records, though the index names the half
one. -/
theorem get_of_openAt_damaged : ∃ log report last,
    (openAt damagedConfig).run.run (ofDisk damagedDisk) = (.ok (log, report), last) ∧
      damagedDisk.WellFormed ∧ damagedConfig.Separate ∧
      ∃ range, damagedConfig.range? damagedDisk = some range ∧ ∀ key,
        ((damagedConfig.candidates damagedDisk range key).Nonempty →
          ∃ entry ∈ damagedConfig.candidates damagedDisk range key,
            (∀ other ∈ damagedConfig.candidates damagedDisk range key, other.1 ≤ entry.1) ∧
              log.get last.disk key = .ok (some entry.2.value)) ∧
        (damagedConfig.candidates damagedDisk range key = ∅ →
          log.find? key = none ∧ log.get last.disk key = .ok none) ∧
        ∃ value, log.get last.disk key = .ok value := by
  have hwell : damagedDisk.WellFormed := Disk.wellFormed_applyAll_empty _
  have hseparate : damagedConfig.Separate := Config.separate_withDirectory _ _
  have hopens : ∃ opened last,
      (openAt damagedConfig).run.run (ofDisk damagedDisk) = (.ok opened, last) := by
    decide +kernel
  obtain ⟨⟨log, report⟩, last, hrun⟩ := hopens
  exact ⟨log, report, last, hrun, hwell, hseparate,
    @get_of_openAt damagedConfig (ofDisk damagedDisk) last log report hwell hseparate hrun⟩

/-- The half record is passed over, and so is the missing one. -/
example : ((openAt damagedConfig).run.run (ofDisk damagedDisk)).1.toOption.bind (fun state =>
    (state.1.get ((openAt damagedConfig).run.run (ofDisk damagedDisk)).2.disk [107]).toOption) =
      some (some [2]) := by
  decide +kernel

/-- Behind its one segment the damaged directory has no more. -/
theorem vacant_damagedDisk (range : SegmentRange) (hrange : damagedConfig.range? damagedDisk = some range)
    (id : UInt64) (hid : range.next ≤ id) :
    damagedDisk.nodeAt (damagedConfig.segmentFile id) = .error .notFound := by
  have hsame : damagedConfig.range? damagedDisk = some ⟨0, 1⟩ := by decide +kernel
  obtain rfl : range = ⟨0, 1⟩ := Option.some.inj (hrange.symm.trans hsame)
  have hname := (ValueFile.segment id).plain_name
  have hdirectory : (Path.ofString "d").place = ["d".toList] := by decide
  have hreaches : damagedDisk.Reaches ((Path.ofString "d").join ⟨(ValueFile.segment id).name⟩) := by
    refine Disk.reaches_join (by decide) hname.proper hname.slash hname.nul
      (Nat.le_trans hname.short (by decide)) ?_
    exact Nat.le_trans (Nat.add_le_add_left hname.short _) (by decide)
  -- no file of the directory has that name
  have hother : ∀ file : ValueFile, file ≠ .segment id → file.name ≠ (ValueFile.segment id).name :=
    fun file hne hsame => hne (ValueFile.name_injective hsame)
  have hindex : "index.log".toList ≠ (ValueFile.segment id).name := hother .index (by simp)
  have hmeta : "segments.meta".toList ≠ (ValueFile.segment id).name := hother .range (by simp)
  have hsegment : "segment_0".toList ≠ (ValueFile.segment id).name := by
    refine hother (.segment 0) fun hsame => ?_
    obtain rfl : 0 = id := by simpa using hsame
    exact absurd hid (by decide)
  have hnone : damagedDisk.node? ((ValueFile.segment id).name :: ["d".toList]) = none := by
    simpa [Disk.node?, damagedDisk, Disk.applyAll, Disk.apply, Disk.setFile, Disk.empty] using
      And.intro hsegment (And.intro hmeta hindex)
  have hpath := Config.filePath_withDirectory { Config.default with capacity := 64 } (.ofString "d")
    (.segment id)
  rw [show damagedConfig.segmentFile id = _ from hpath, hreaches.nodeAt_eq, Path.place_join _ hname,
    hdirectory, hnone]

/-! ## Interrupted openings -/

/-- What is left on a disk after any number of openings, each of which ended in a crash. -/
inductive Interrupted (config : Config) (start : Disk) : Disk → Prop
  /-- None so far. -/
  | start : Interrupted config start start
  /-- Another opening is interrupted, between two effects or in a write. -/
  | crash {disk left : Disk} : Interrupted config start disk →
    disk.Crashes ((openAt config).run.run (ofDisk disk)).2.effects.reverse left →
      Interrupted config start left

/-- What a crash leaves in which an opening has come as far as its first `count` effects. -/
def crashed (config : Config) (disk : Disk) (count : Nat) : Disk :=
  disk.applyAll (((openAt config).run.run (ofDisk disk)).2.effects.reverse.take count)

theorem Interrupted.crashed {start disk : Disk} (h : Interrupted config start disk) (count : Nat) :
    Interrupted config start (crashed config disk count) :=
  h.crash (Disk.crashes_take _ _ count)

/-- After an interrupted opening the files can be opened as before, and select the same. -/
theorem Interrupted.openable {start left : Disk} {old : SegmentRange}
    (h : Interrupted config start left) (hseparate : config.Separate)
    (hopen : config.Openable start old) :
    ∃ range, config.Openable left range ∧ ∀ key,
      selectedValue (config.indexed left) (config.scanned left range) key =
        selectedValue (config.indexed start) (config.scanned start old) key := by
  induction h with
  | start => exact ⟨old, hopen, fun _ => rfl⟩
  | crash _ hcrash ih =>
    obtain ⟨range, hopen', hselected⟩ := ih
    have hpreserves := (achieves_openAt hopen'.wellFormed hseparate hopen'.room.parent
      fun disk hdisk => hdisk).during_crash hcrash
    obtain ⟨range', hopen'', hselected'⟩ := hopen'.of_preserves (hpreserves range hopen')
    exact ⟨range', hopen'', fun key => (hselected' key).trans (hselected key)⟩

/-- Where an opening goes well and no file is in the way of a new segment, an opening may be
interrupted. -/
theorem openable_of_openAt {start last : Disk} {past : List Effect} {state : ValueLog × Recovery}
    (hwell : start.WellFormed) (hseparate : config.Separate)
    (hparent : start.Reaches config.indexLog → start.HasParent config.segmentStem)
    (hfree : ∀ range, config.range? start = some range → ∀ id, range.next ≤ id →
      start.nodeAt (config.segmentFile id) = .error .notFound)
    (hrun : (openAt config).run.run (ofDisk start) = (.ok state, ⟨last, past⟩)) :
    config.validate = .ok () ∧ ∃ old, config.Openable start old := by
  -- an opening that goes well has found room for all files that it needs
  have hanywhere := (achieves_openAt_anywhere hwell hseparate).after_run_ofDisk
  rw [hrun] at hanywhere
  have hparent := hparent hanywhere.1.toReaches
  have hopened :=
    (achieves_openAt hwell hseparate hparent fun disk hdisk => hdisk).after_run_ofDisk
  rw [hrun] at hopened
  obtain ⟨hvalid, hindex, hbesideIndex, hcapacity, hsaid, old, base, copies, hopened⟩ := hopened
  have horder : old.first ≤ old.next := SegmentRange.first_le_next_of_ofBytes? hopened.range_eq
  have hfree : ∀ id, old.next ≤ id → start.Admits (config.segmentFile id) ∧
      start.bytesAt (config.segmentFile id).place = none := fun id hid =>
    (hopened.admits old.next horder (UInt64.le_refl _)).toReaches.segment_of_notFound
      (hfree old hopened.range_eq id hid)
  refine ⟨hvalid, old, hwell, ⟨hparent, hindex, hbesideIndex, hopened.admits_range,
    hopened.admits_besideRange, hcapacity, fun id hid => ?_⟩, hsaid, hopened.range_eq,
    fun id hid => (hfree id hid).2⟩
  rcases UInt64.le_total id old.next with hold | hnew
  · exact hopened.admits id hid hold
  · exact (hfree id hnew).1

/-- However often openings of a data directory were interrupted, the next one serves what the first would
have served, unless there are not enough addresses left for what it copies. -/
theorem get_of_interrupted {base : Config} {directory : Path} {start left last : Disk}
    {past : List Effect} {log : ValueLog} {report : Recovery} (hwell : start.WellFormed)
    (hfree : ∀ range, (base.withDirectory directory).range? start = some range →
      ∀ id, range.next ≤ id →
        start.nodeAt ((base.withDirectory directory).segmentFile id) = .error .notFound)
    (hrun : (openAt (base.withDirectory directory)).run.run (ofDisk start) =
      (.ok (log, report), ⟨last, past⟩))
    (hleft : Interrupted (base.withDirectory directory) start left) :
    match (openAt (base.withDirectory directory)).run.run (ofDisk left) with
    | (.ok (log', _), drive) => ∀ key, log'.get drive.disk key = log.get last key
    | (.error fault, _) =>
      fault = .arithmetic ∧ ¬ (base.withDirectory directory).AffordsOpening left := by
  have hseparate := Config.separate_withDirectory base directory
  obtain ⟨hvalid, old, hopen⟩ := openable_of_openAt hwell hseparate
    (@Config.hasParent_withDirectory base directory start .index) hfree hrun
  obtain ⟨range, hopen', hselected⟩ := hleft.openable hseparate hopen
  have hfirst :=
    (achieves_openAt hwell hseparate hopen.room.parent fun disk hdisk => hdisk).after_run_ofDisk
  rw [hrun] at hfirst
  obtain ⟨-, -, -, -, -, old', lines, copies, hfirst⟩ := hfirst
  obtain rfl : old = old' := Option.some.inj (hopen.range_eq.symm.trans hfirst.range_eq)
  have hsecond := (achieves_openAt hopen'.wellFormed hseparate hopen'.room.parent
    fun disk hdisk => hdisk).after_run_ofDisk
  have htallied := (openAt_tallied hopen'.wellFormed hseparate).after_run_ofDisk
  rcases hrun' : (openAt (base.withDirectory directory)).run.run (ofDisk left) with
    ⟨fault | ⟨log', report'⟩, drive⟩ <;> rw [hrun'] at hsecond htallied
  · have hfault : fault = .arithmetic := hsecond hvalid ⟨range, hopen'⟩
    exact ⟨hfault, fun haffords => htallied haffords hfault⟩
  · obtain ⟨-, -, -, -, -, range', lines', copies', hsecond⟩ := hsecond
    obtain rfl : range = range' := Option.some.inj (hopen'.range_eq.symm.trans hsecond.range_eq)
    -- both openings serve what the files of the first one select
    intro key
    rw [hfirst.get_eq, hsecond.get_eq, hfirst.value_eq, hsecond.value_eq]
    exact congrArg Except.ok (hselected key)

/-- The damaged directory when an opening has copied the record, and its source is still there. -/
def copiedDisk : Disk := crashed damagedConfig damagedDisk 17

/-- That directory when another opening has copied the copy, and has removed the first of the two segments
that are old now. -/
def removedDisk : Disk := crashed damagedConfig copiedDisk 14

/-- Two openings of the damaged directory are interrupted behind their copies. The third one serves what the
first would have served. -/
theorem get_of_interrupted_damaged : ∃ log report last past log' report' drive,
    damagedDisk.WellFormed ∧
    (openAt damagedConfig).run.run (ofDisk damagedDisk) = (.ok (log, report), ⟨last, past⟩) ∧
    ([0, 1, 2].map fun id => damagedConfig.fileBytes copiedDisk (.segment id)) =
      [damagedConfig.fileBytes damagedDisk (.segment 0), some (Record.encode ⟨[107], [2]⟩), none] ∧
    ([0, 1, 2].map fun id => damagedConfig.fileBytes removedDisk (.segment id)) =
      [none, some (Record.encode ⟨[107], [2]⟩), some (Record.encode ⟨[107], [2]⟩)] ∧
    Interrupted damagedConfig damagedDisk removedDisk ∧
    (openAt damagedConfig).run.run (ofDisk removedDisk) = (.ok (log', report'), drive) ∧
    (∀ key, log'.get drive.disk key = log.get last key) ∧
    log'.get drive.disk [107] = .ok (some [2]) := by
  have hruns :
      ([0, 1, 2].map fun id => damagedConfig.fileBytes copiedDisk (.segment id)) =
        [damagedConfig.fileBytes damagedDisk (.segment 0), some (Record.encode ⟨[107], [2]⟩), none] ∧
      ([0, 1, 2].map fun id => damagedConfig.fileBytes removedDisk (.segment id)) =
        [none, some (Record.encode ⟨[107], [2]⟩), some (Record.encode ⟨[107], [2]⟩)] ∧
      ∃ state first, (openAt damagedConfig).run.run (ofDisk damagedDisk) = (.ok state, first) ∧
        ∃ state' drive, (openAt damagedConfig).run.run (ofDisk removedDisk) = (.ok state', drive) ∧
          state'.1.get drive.disk [107] = .ok (some [2]) := by
    decide +kernel
  have hleft : Interrupted damagedConfig damagedDisk copiedDisk := Interrupted.start.crashed 17
  have hleft : Interrupted damagedConfig damagedDisk removedDisk := hleft.crashed 14
  have hwell : damagedDisk.WellFormed := Disk.wellFormed_applyAll_empty _
  -- for the theorem it does not matter which disk is left
  generalize removedDisk = left at *
  obtain ⟨hcopied, hremoved, ⟨log, report⟩, ⟨last, past⟩, hrun, ⟨log', report'⟩, drive, hrun', hget⟩ :=
    hruns
  have hsame := get_of_interrupted hwell vacant_damagedDisk hrun hleft
  rw [← damagedConfig, hrun'] at hsame
  exact ⟨log, report, last, past, log', report', drive, hwell, hrun, hcopied, hremoved, hleft, hrun', hsame,
    hget⟩

end ValueLog

end BarrierStore
