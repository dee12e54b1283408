import BarrierStore.Proofs.ValueLog.Compaction

/-!
# Opening once more

What an opening leaves is all live: each record is the only one of its key, and its line in the index log
has its address. So the next opening copies every record, in the same order and with the same rollovers,
and what it leaves differs in the ids of the segments only.

The module introduces `ValueLog.Untouched`: of what a log has written nothing has been lost or changed.

Main statement: `ValueLog.reopens_of_openAt`.
-/

namespace BarrierStore

open Drive

/-! ## The records of one segment -/

namespace Config

variable {config : Config} {disk disk' : Disk} {range range' : SegmentRange} {id id' : UInt64}

/-- The records of a segment are those whose addresses lie in it. -/
theorem scannedSegment_eq_filter (hid : id ∈ range.ids) :
    config.scannedSegment disk id = (config.scanned disk range).filter fun entry =>
      entry.1 / config.capacity.toNat = id.toNat := by
  have hsegment : ∀ other, ∀ entry ∈ config.scannedSegment disk other,
      entry.1 / config.capacity.toNat = other.toNat := by
    intro other entry hentry
    obtain ⟨hlow, hhigh⟩ := bounds_of_mem_scannedSegment hentry
    exact Nat.div_eq_of_lt_le hlow hhigh
  obtain ⟨front, rest, hids⟩ := List.append_of_mem hid
  -- no other segment of the range has the id
  have hother : ∀ ids : List UInt64, id ∉ ids →
      ((ids.flatMap (config.scannedSegment disk)).filter fun entry =>
        entry.1 / config.capacity.toNat = id.toNat) = [] := by
    intro ids hids
    refine List.filter_eq_nil_iff.mpr fun entry hentry => ?_
    obtain ⟨other, hother, hmem⟩ := List.mem_flatMap.mp hentry
    rw [hsegment other entry hmem, decide_eq_true_eq, UInt64.toNat_inj]
    rintro rfl
    exact hids hother
  have hnodup : (front ++ id :: rest).Nodup :=
    hids ▸ (SegmentRange.pairwise_ids range).imp fun hlt => UInt64.ne_of_lt hlt
  obtain ⟨-, hrest, hfront⟩ := List.pairwise_append.mp hnodup
  rw [scanned, hids, List.flatMap_append, List.flatMap_cons, List.filter_append, List.filter_append,
    hother front fun hmem => hfront id hmem id List.mem_cons_self rfl,
    hother rest fun hmem => (List.pairwise_cons.mp hrest).1 id hmem rfl, List.nil_append,
    List.append_nil, List.filter_eq_self.mpr fun entry hentry => by simp [hsegment id entry hentry]]

/-- Records that lie some segments later lie in the segments that much later. -/
theorem scannedSegment_shift (hcapacity : config.capacity ≠ 0) {count : Nat}
    (hscanned : config.scanned disk' range' = (config.scanned disk range).map fun entry =>
      (entry.1 + count * config.capacity.toNat, entry.2))
    (hid : id ∈ range.ids) (hid' : id' ∈ range'.ids) (hshift : id'.toNat = id.toNat + count) :
    (config.scannedSegment disk' id').map Prod.snd = (config.scannedSegment disk id).map Prod.snd := by
  have hpos := Position.capacity_pos hcapacity
  rw [scannedSegment_eq_filter hid', scannedSegment_eq_filter hid, hscanned,
    List.filter_map, List.map_map]
  have hsame : (fun entry : Nat × Record =>
      decide ((entry.1 + count * config.capacity.toNat) / config.capacity.toNat = id'.toNat)) =
        fun entry => decide (entry.1 / config.capacity.toNat = id.toNat) := by
    funext entry
    rw [Nat.add_mul_div_right _ _ hpos, hshift]
    simp
  exact congrArg (fun keep => ((config.scanned disk range).filter keep).map Prod.snd) hsame

end Config

namespace ValueLog

variable {config : Config} {log : ValueLog} {disk left : Disk} {origin : UInt64}
  {base : List (Bytes × UInt64)} {copies found : Found} {map : AddressMap}

/-! ## What an opening leaves is live -/

/-- Where each record is the only one of its key, and has its line, the files select them all. -/
theorem Serves.live_eq (h : log.Serves config disk origin base copies [])
    (hcopies : Copies map found copies) : config.live disk log.range = copies.map Prod.snd := by
  have hscanned : config.scanned disk log.range = copies := by
    rw [← List.append_nil copies, ← h.scanned_eq, ← h.first_eq]
  rw [Config.live, hscanned, chosen, List.filter_eq_self.mpr fun entry hentry => ?_]
  have hline : (config.indexed disk)[entry.2.key]? = some (UInt64.ofNat entry.1) := by
    rw [h.indexed_eq, List.append_nil, getElem?_ofEntries, latest_append, Found.latest_lines,
      hcopies.last?_eq hentry]
    rfl
  have hfits := h.fits entry (List.mem_append_left _ hentry)
  rw [decide_eq_true_eq, selected, hline, Option.bind_some, UInt64.toNat_ofNat_of_lt' hfits]
  exact hcopies.newest_eq [] hentry

/-- No segment of a log in good order is torn. -/
theorem Orderly.tornCount_eq (h : log.Orderly config disk origin)
    (hserves : log.Serves config disk origin base copies []) :
    config.tornCount disk log.range.ids = 0 := by
  refine List.countP_eq_zero.mpr fun id hid => ?_
  obtain ⟨hfirst, hnext⟩ := SegmentRange.mem_ids_iff.mp hid
  obtain ⟨bytes, hbytes, hshaped⟩ :=
    h.shaped id (hserves.first_eq ▸ hfirst) (hserves.le_active hnext)
  rw [Config.scan, hbytes, Option.getD_some, hshaped.1.torn_eq]
  exact Bool.false_ne_true

/-! ## What a crash leaves of it -/

/-- Of what the log has written, and of the capacity file, nothing was lost or changed. -/
def Untouched (config : Config) (log : ValueLog) (disk left : Disk) : Prop :=
  ∃ places, disk.Spares places left ∧ config.place .index ∉ places ∧ config.place .range ∉ places ∧
    config.place .capacity ∉ places ∧
      ∀ id, log.range.first ≤ id → config.place (.segment id) ∉ places

/-- Where the small files have reached the medium, a loss of power takes nothing from a log that was
opened. -/
theorem untouched_of_loses (hsettled : log.Settled config disk log.range.first)
    (hnext : ∀ id, id < log.range.next → id ≤ log.active.id)
    (hvacant : config.Vacant disk log.range.next) {least : UInt64}
    (hrecorded : config.Recorded least disk) (hloses : disk.Loses left) :
    Untouched config log disk left := by
  refine ⟨_, hloses.spares hsettled.wellFormed, not_not.mpr hsettled.firm_index,
    not_not.mpr hrecorded.firm_range, not_not.mpr hrecorded.firm_capacity, fun id hid => not_not.mpr ?_⟩
  rcases UInt64.lt_or_le id log.range.next with hold | hnew
  · rcases UInt64.lt_or_eq_of_le (hnext id hold) with hlt | rfl
    · exact hsettled.sealed id hid hlt
    · exact hsettled.firm_active
  · exact Disk.firm_of_vacant (hvacant id hnew)

/-- What was not lost is served as before. -/
theorem Untouched.serves (h : Untouched config log disk left)
    (hserves : log.Serves config disk origin base copies []) :
    log.Serves config left origin base copies [] := by
  obtain ⟨places, hspares, hindex, hrange, -, hsegment⟩ := h
  rw [hserves.first_eq] at hsegment
  exact { hserves.toTracks.of_changes hspares.toChanges hindex hrange hsegment with
    first_eq := hserves.first_eq
    applied_eq := hserves.applied_eq
    staged_eq := hserves.staged_eq }

theorem Untouched.orderly (h : Untouched config log disk left)
    (horderly : log.Orderly config disk log.range.first) : log.Orderly config left log.range.first :=
  let ⟨_, hspares, _, _, _, hsegment⟩ := h
  horderly.of_spares hspares hsegment

/-! ## The next opening -/

/-- The segment behind those of a log comes as many segments after the first of them. -/
theorem Serves.start_next (h : log.Serves config disk origin base copies []) :
    Spot.start log.range.next = (Spot.start origin).shift log.range.count := by
  have hle : log.range.first.toNat ≤ log.range.next.toNat := by
    rw [h.first_eq]
    exact UInt64.le_iff_toNat_le.mp h.origin_le_next
  rw [Spot.shift, Spot.start, Spot.start, SegmentRange.count, ← h.first_eq, Nat.add_sub_cancel' hle]

section Again

variable {start last last' : Disk} {old : SegmentRange} {log' : ValueLog} {report report' : Recovery}
  (h : Reclaimed config start old log report last)
  (hserves : log.Serves config left old.next base (config.scanned last log.range) [])
  (h' : Reclaimed config left log.range log' report' last')

include h hserves

/-- The same records are live as in front of the first opening. -/
theorem Reclaimed.live_again : config.live left log.range = config.live start old := by
  rw [hserves.live_eq h.isCopies, h.laid_eq, Spot.laid_records]

include h'

/-- All records are copied once more, and no segment was torn. -/
theorem Reclaimed.report_again (horderly : log.Orderly config left old.next) :
    report'.dropped = 0 ∧ report'.torn = 0 ∧ report'.relocated = report.relocated := by
  have hscanned : config.scanned left log.range = config.scanned last log.range := by
    rw [← List.append_nil (config.scanned last log.range), ← hserves.scanned_eq, ← hserves.first_eq]
  have htotal := h'.total_eq
  have hrelocated : report'.relocated = report.relocated := by
    rw [h'.relocated_eq, h.live_again hserves, h.relocated_eq]
  rw [hscanned, hrelocated, h.length_scanned] at htotal
  exact ⟨by omega, h'.torn_eq.trans (horderly.tornCount_eq hserves), hrelocated⟩

/-- The next opening fills as many segments as the first one. -/
theorem Reclaimed.next_again :
    log'.range.next.toNat = log.range.next.toNat + log.range.count := by
  obtain ⟨_, hserves'⟩ := h'.exists_serves
  have hspot : log'.spot = log.spot.shift log.range.count := by
    rw [h'.spot_eq, hserves.start_next, h.live_again hserves, Spot.after_shift, h.spot_eq]
  have hactive : log'.active.id.toNat = log.active.id.toNat + log.range.count :=
    congrArg Spot.segment hspot
  rw [hserves'.next_eq, hserves.next_eq, hactive, Nat.add_right_comm]

/-- Each of its segments has the bytes of the one that was as many segments earlier. -/
theorem Reclaimed.bytes_again (hcapacity : config.capacity ≠ 0) {id id' : UInt64}
    (hid : log.range.first ≤ id) (hnext : id < log.range.next)
    (hshift : id'.toNat = id.toNat + log.range.count) : ∃ bytes,
      config.fileBytes last (.segment id) = some bytes ∧
        config.fileBytes last' (.segment id') = some bytes := by
  obtain ⟨_, hserves'⟩ := h'.exists_serves
  -- the same records are laid out from a segment on that is as much later
  have hscanned : config.scanned last' log'.range = (config.scanned last log.range).map fun entry =>
      (entry.1 + log.range.count * config.capacity.toNat, entry.2) := by
    rw [h'.laid_eq, hserves.start_next, h.live_again hserves, Spot.laid_shift, h.laid_eq]
  have hnext' := h.next_again hserves h'
  have hle : log.range.next ≤ id' := by
    have := UInt64.le_iff_toNat_le.mp hid
    have := UInt64.le_iff_toNat_le.mp hserves.origin_le_next
    rw [UInt64.le_iff_toNat_le, hshift, SegmentRange.count]
    omega
  have hlt : id' < log'.range.next := by
    rw [UInt64.lt_iff_toNat_lt] at hnext ⊢
    omega
  have hmem : id ∈ log.range.ids := SegmentRange.mem_ids_iff.mpr ⟨hid, hnext⟩
  have hmem' : id' ∈ log'.range.ids := SegmentRange.mem_ids_iff.mpr ⟨hserves'.first_eq ▸ hle, hlt⟩
  refine ⟨_, (h.holds hmem).2, ?_⟩
  rw [← Config.scannedSegment_shift hcapacity hscanned hmem hmem' hshift]
  exact (h'.holds hmem').2

end Again

/-- What an opening leaves can be opened, and nothing of it goes with the power if the capacity file had
reached the medium in front of the opening. -/
theorem openable_of_reopened {start last : Disk} {past : List Effect} {report : Recovery}
    (hseparate : config.Separate) {old : SegmentRange} (hopen : config.Openable start old)
    (hrun : (openAt config).run.run (ofDisk start) = (.ok (log, report), ⟨last, past⟩))
    (hloses : last.Loses left) (hfirm : left = last ∨ start.Firm (config.place .capacity)) :
    config.Openable left log.range ∧ Untouched config log last left := by
  have hopened := (achieves_openAt hopen.wellFormed hseparate hopen.room.parent
    fun _ hdisk => hdisk).after_run_ofDisk
  have hguards := (guards_openAt hopen.wellFormed hseparate hopen.room.parent
    fun _ _ => UInt64.zero_le).after_run_ofDisk
  rw [hrun] at hopened hguards
  obtain ⟨-, -, -, -, -, old', lines, copies, hopened⟩ := hopened
  obtain ⟨hsettled, hrecorded⟩ := hguards
  obtain rfl : old = old' := Option.some.inj (hopen.range_eq.symm.trans hopened.range_eq)
  have hopen' := hopened.openable hopen
  -- a process that is killed leaves the disk as it is; a loss of power leaves what was settled
  have huntouched : Untouched config log last left := by
    rcases hfirm with rfl | hfirm
    · exact ⟨∅, .refl hopen'.wellFormed, Set.notMem_empty _, Set.notMem_empty _, Set.notMem_empty _,
        fun _ _ => Set.notMem_empty _⟩
    · exact untouched_of_loses hsettled (fun _ => hopened.le_active) hopen'.vacant (hrecorded hfirm)
        hloses
  refine ⟨?_, huntouched⟩
  obtain ⟨places, hspares, -, hrange, hcapacity, hsegment⟩ := huntouched
  exact hopen'.of_changes hspares.toChanges hrange hcapacity fun id hid =>
    hsegment id (UInt64.le_trans hopen'.order hid)

/-- An opening behind another one copies everything, drops nothing, and leaves the same segments, as many
ids later as there are of them; unless it runs out of addresses. In between the process can be killed; the
power can go, too, if the capacity file, which openings only read, had reached the medium. -/
theorem reopens_of_openAt {base : Config} {directory : Path} {start last left : Disk}
    {past : List Effect} {log : ValueLog} {report : Recovery} (hwell : start.WellFormed)
    (hfree : ∀ range, (base.withDirectory directory).range? start = some range →
      ∀ id, range.next ≤ id →
        start.nodeAt ((base.withDirectory directory).segmentFile id) = .error .notFound)
    (hrun : (openAt (base.withDirectory directory)).run.run (ofDisk start) =
      (.ok (log, report), ⟨last, past⟩))
    (hloses : last.Loses left)
    (hfirm : left = last ∨ start.Firm ((base.withDirectory directory).place .capacity)) :
    let config := base.withDirectory directory
    match (openAt config).run.run (ofDisk left) with
    | (.ok (log', report'), drive) =>
      report'.dropped = 0 ∧ report'.torn = 0 ∧ report'.relocated = report.relocated ∧
      (∀ key, log'.get drive.disk key = log.get last key) ∧
      log'.range.first = log.range.next ∧
      log'.range.next.toNat = log.range.next.toNat + log.range.count ∧
      (∀ id, log.range.first ≤ id → (id ∈ config.segmentsOn drive.disk ↔
        log'.range.first ≤ id ∧ id < log'.range.next)) ∧
      ∀ id id', log.range.first ≤ id → id < log.range.next →
        id'.toNat = id.toNat + log.range.count → ∃ bytes,
          config.fileBytes last (.segment id) = some bytes ∧
            config.fileBytes drive.disk (.segment id') = some bytes
    | (.error fault, _) => fault = .arithmetic ∧ ¬ config.AffordsOpening left := by
  intro config
  have hseparate : config.Separate := Config.separate_withDirectory base directory
  obtain ⟨hvalid, old, hopen⟩ := openable_of_openAt hwell hseparate
    (@Config.hasParent_withDirectory base directory start .index) hfree hrun
  obtain ⟨old', hrange, h⟩ := reclaimed_of_openAt hwell hseparate hrun
  obtain rfl : old = old' := Option.some.inj (hopen.range_eq.symm.trans hrange)
  obtain ⟨hopen', huntouched⟩ := openable_of_reopened hseparate hopen hrun hloses hfirm
  obtain ⟨lines, hserves⟩ := h.exists_serves
  have hserves' := huntouched.serves hserves
  have hsecond := (achieves_openAt hopen'.wellFormed hseparate hopen'.room.parent
    fun _ hdisk => hdisk).after_run_ofDisk
  have htallied := (openAt_tallied hopen'.wellFormed hseparate).after_run_ofDisk
  rcases hrun' : (openAt config).run.run (ofDisk left) with ⟨fault | ⟨log', report'⟩, drive⟩
  · -- the disk has room for all files, so only the addresses can run out
    rw [hrun'] at hsecond htallied
    have harithmetic : fault = .arithmetic := hsecond hvalid ⟨_, hopen'⟩
    exact ⟨harithmetic, fun haffords => htallied haffords harithmetic⟩
  rw [hrun'] at hsecond
  obtain ⟨-, -, -, -, -, old', lines', copies', hsecond⟩ := hsecond
  obtain rfl : log.range = old' := Option.some.inj (hopen'.range_eq.symm.trans hsecond.range_eq)
  obtain ⟨old', hrange', h'⟩ := reclaimed_of_openAt hopen'.wellFormed hseparate hrun'
  obtain rfl : log.range = old' := Option.some.inj (hopen'.range_eq.symm.trans hrange')
  -- both openings are over: the second one starts from live records only
  have horderly : log.Orderly config left old.next :=
    hserves.first_eq ▸ huntouched.orderly (hserves.first_eq ▸ h.orderly)
  obtain ⟨hdropped, htorn, hrelocated⟩ := h.report_again hserves' h' horderly
  refine ⟨hdropped, htorn, hrelocated, fun key => ?_, hsecond.first_eq, h.next_again hserves' h',
    fun id => h'.mem_segmentsOn_iff (hsecond.vacant hopen'.vacant), fun id id' hid hnext hshift =>
      h.bytes_again hserves' h' (capacity_ne_of_validate hvalid) hid hnext hshift⟩
  -- the files in between select the values that the log had
  rw [hsecond.get_eq, hsecond.value_eq, (hserves'.selected_eq key).2, List.append_nil, hserves.get_eq]

/-- Of what the first opening left, the second one copies all. -/
theorem reopens_of_openAt_damaged : ∃ log report last past log' report' drive,
    (openAt damagedConfig).run.run (ofDisk damagedDisk) = (.ok (log, report), ⟨last, past⟩) ∧
      (openAt damagedConfig).run.run (ofDisk last) = (.ok (log', report'), drive) ∧
      report'.dropped = 0 ∧ report'.torn = 0 ∧ report'.relocated = report.relocated ∧
      (∀ key, log'.get drive.disk key = log.get last key) ∧ log'.range.first = log.range.next ∧
      log'.range.next.toNat = log.range.next.toNat + log.range.count := by
  have hruns : ∃ opened drive, (openAt damagedConfig).run.run (ofDisk damagedDisk) = (.ok opened, drive) ∧
      ∃ reopened drive',
        (openAt damagedConfig).run.run (ofDisk drive.disk) = (.ok reopened, drive') := by
    decide +kernel
  obtain ⟨⟨log, report⟩, ⟨last, past⟩, hrun, ⟨log', report'⟩, drive, hrun'⟩ := hruns
  have hreopens := reopens_of_openAt (Disk.wellFormed_applyAll_empty _) vacant_damagedDisk hrun
    (.refl last) (.inl rfl)
  unfold damagedConfig at hrun'
  dsimp only at hreopens
  rw [hrun'] at hreopens
  obtain ⟨hdropped, htorn, hrelocated, hgets, hnext, hcount, -⟩ := hreopens
  exact ⟨log, report, last, past, log', report', drive, hrun, hrun', hdropped, htorn, hrelocated, hgets,
    hnext, hcount⟩

end ValueLog

end BarrierStore
