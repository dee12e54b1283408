import BarrierStore.Proofs.ValueLog.Tally

/-!
# Keys without a record

A key that the index log binds, and of which no record is found, is forgotten when a value log is opened.
It is forgotten in memory only. The index log is compacted before the records are looked at, so the line of
such a key stays in it until the log is closed, and every opening until then finds the key dangling again.

Main statement: `ValueLog.indexed_of_openAt`, which says how the index log and the index differ after an
opening; `ValueLog.dangling_twice` is an opening after which they do.
-/

namespace BarrierStore

open Drive

namespace ValueLog

variable {config : Config} {log log' : ValueLog} {start : Disk} {report report' : Recovery}
  {drive drive' : Drive}

/-- What has been opened serves what its files selected, and its files select that still. -/
theorem exists_serves_of_openAt (hwell : start.WellFormed) (hseparate : config.Separate)
    (hopened : (openAt config).run.run (ofDisk start) = (.ok (log, report), drive)) :
    ∃ old origin base copies, config.range? start = some old ∧
      log.Serves config drive.disk origin base copies [] ∧ ∀ key,
        latest copies.bindings key =
          selectedValue (config.indexed start) (config.scanned start old) key := by
  have hafter := (achieves_openAt_anywhere hwell hseparate).after_run_ofDisk
  rw [hopened] at hafter
  obtain ⟨-, old, base, copies, hrange, hserves, hvalues⟩ := hafter
  exact ⟨old, _, base, copies, hrange, hserves, hvalues⟩

/-- An opening behind another one keeps the same keys. -/
theorem size_applied_of_reopened (hwell : start.WellFormed) (hseparate : config.Separate)
    (hopened : (openAt config).run.run (ofDisk start) = (.ok (log, report), drive))
    (hreopened : (openAt config).run.run (ofDisk drive.disk) = (.ok (log', report'), drive')) :
    log'.index.applied.size = log.index.applied.size := by
  obtain ⟨_, _, _, copies, -, hserves, -⟩ := exists_serves_of_openAt hwell hseparate hopened
  obtain ⟨old, _, _, copies', hrange, hserves', hvalues⟩ :=
    exists_serves_of_openAt hserves.wellFormed hseparate hreopened
  refine size_eq_of_isSome fun key => ?_
  -- the files select what the first opening has copied, and that is copied once more
  obtain ⟨hsame, hselected⟩ := hserves.selected_eq key
  obtain rfl : old = log.range := Option.some.inj (hrange.symm.trans hsame)
  rw [hserves'.applied_eq, hserves.applied_eq, getElem?_ofEntries, getElem?_ofEntries,
    Found.isSome_latest_lines, Found.isSome_latest_lines, hvalues, hselected, List.append_nil]

/-- After an opening the index log binds all that it bound, with the new addresses laid over the old ones,
and the index has those of the keys that were not dangling. So the two agree exactly if no key was, and
the same keys are dangling at the next opening. -/
theorem indexed_of_openAt {base : Config} {directory : Path} (hwell : start.WellFormed)
    (hopened : (openAt (base.withDirectory directory)).run.run (ofDisk start) =
      (.ok (log, report), drive)) :
    let config := base.withDirectory directory
    config.indexed drive.disk = config.indexed start ∪ log.index.applied ∧
      (config.indexed drive.disk).size = log.index.applied.size + report.dangling ∧
      (config.indexed drive.disk = log.index.applied ↔ report.dangling = 0) ∧
      ∀ log' report' drive', (openAt config).run.run (ofDisk drive.disk) =
        (.ok (log', report'), drive') → report'.dangling = report.dangling := by
  intro config
  have hseparate : config.Separate := Config.separate_withDirectory base directory
  have hopens := (openAt_tallied hwell hseparate).after_run_ofDisk
  rw [hopened] at hopens
  obtain ⟨-, old, -, htallied⟩ := hopens
  have hindexed : config.indexed drive.disk = config.indexed start ∪ log.index.applied :=
    htallied.indexed_eq
  have hsize : log.index.applied.size + report.dangling = (config.indexed start).size :=
    htallied.size_eq
  have hkept : ∀ key, log.index.applied[key]?.isSome → (config.indexed start)[key]?.isSome :=
    htallied.indexed_of_applied
  -- no key is bound that was not bound in front of the opening
  have hkeys : (config.indexed drive.disk).size = (config.indexed start).size := by
    refine size_eq_of_isSome fun key => ?_
    rw [hindexed, Std.ExtTreeMap.getElem?_union, Option.isSome_or]
    cases hfound : log.index.applied[key]? with
    | none => rfl
    | some => exact (hkept key (by rw [hfound]; rfl)).symm
  refine ⟨hindexed, hkeys.trans hsize.symm, ⟨fun hsame => ?_, fun hnone => ?_⟩,
    fun log' report' drive' hreopened => ?_⟩
  · rw [hsame] at hkeys
    omega
  · -- where no key was dangling, the index has them all
    refine Std.ExtTreeMap.ext_getElem? fun {key} => ?_
    rw [hindexed, Std.ExtTreeMap.getElem?_union]
    cases hfound : log.index.applied[key]? with
    | some => rfl
    | none =>
      rw [Option.none_or, ← Option.not_isSome_iff_eq_none]
      intro hbound
      have := isSome_of_size_le hkept (by omega) hbound
      rw [hfound] at this
      cases this
  · obtain ⟨_, _, _, _, -, hserves, -⟩ := exists_serves_of_openAt hwell hseparate hopened
    have hopens := (openAt_tallied hserves.wellFormed hseparate).after_run_ofDisk
    rw [hreopened] at hopens
    obtain ⟨-, old', -, htallied'⟩ := hopens
    have hsize' : log'.index.applied.size + report'.dangling = (config.indexed drive.disk).size :=
      htallied'.size_eq
    have hsame := size_applied_of_reopened hwell hseparate hopened hreopened
    omega

/-- A data directory with nothing in it but an index log, which binds the key `k`. -/
def dangled : Disk :=
  Disk.fresh.applyAll
    [.create ["index.log".toList, "data".toList],
      .write Disk.fresh.nextFile 0 (IndexLog.encodeEntries [([107], 5)])]

/-- A line without a record dangles at the first opening, and again at the second one. -/
theorem indexed_of_openAt_dangled : ∃ log report drive log' report' drive',
    (openAt (Config.default.withDirectory Path.fresh)).run.run (ofDisk dangled) =
        (.ok (log, report), drive) ∧
      (openAt (Config.default.withDirectory Path.fresh)).run.run (ofDisk drive.disk) =
        (.ok (log', report'), drive') ∧
      ((Config.default.withDirectory Path.fresh).indexed drive.disk = log.index.applied ↔
        report.dangling = 0) ∧ report'.dangling = report.dangling := by
  have hruns : ∃ opened drive,
      (openAt (Config.default.withDirectory Path.fresh)).run.run (ofDisk dangled) = (.ok opened, drive) ∧
      ∃ reopened drive', (openAt (Config.default.withDirectory Path.fresh)).run.run (ofDisk drive.disk) =
        (.ok reopened, drive') := by
    decide +kernel
  obtain ⟨⟨log, report⟩, drive, hopened, ⟨log', report'⟩, drive', hreopened⟩ := hruns
  have hwell : dangled.WellFormed := Disk.wellFormed_fresh.applyAll _
  obtain ⟨-, -, hagree, hagain⟩ := indexed_of_openAt hwell hopened
  exact ⟨log, report, drive, log', report', drive', hopened, hreopened, hagree,
    hagain log' report' drive' hreopened⟩

/-- The index is empty, the index log is not, and the key dangles at the next opening too. -/
theorem dangling_twice :
    ((do
      let (log, _) ← openAt (Config.default.withDirectory Path.fresh)
      let lined ← IndexLog.load (Config.default.withDirectory Path.fresh).indexLog
      let (_, report) ← openAt (Config.default.withDirectory Path.fresh)
      return (log.index.applied.toList, lined.toList, report.dangling) :
        DiskM (List (Bytes × UInt64) × List (Bytes × UInt64) × Nat)).run.run
          (ofDisk dangled)).1.toOption = some ([], [([107], 5)], 1) := by
  decide +kernel

end ValueLog

end BarrierStore
