import BarrierStore.Proofs.ValueLog.Reopening
import Mathlib.Logic.Relation

/-!
# What the segments hold

From the first opening of a value log in an empty directory on, through any number of sessions, each
ended by a last barrier or by a crash, its files have one shape: whole records in segments that are no
longer than the capacity, unless a single record is; every binding names the start of a record of its
key; and neither an address nor a segment is used a second time.

The module introduces:

* `Config.Holds` — a segment holds these records and nothing else;
* `ValueLog.Sound` — what is true of the segments and the bindings of an open log;
* `ValueLog.History` — the log and its disk, the addresses of all records that were stored, and all
  segments that had a file; `History.Step`, what may come next: an opening, a write, a barrier, the end of
  the session, or a crash in one of them, with or without a loss of power;
* `History.Represented` — what is true of a history.

Main statement: `History.represented_of_lives`.
-/

namespace BarrierStore

open Drive

namespace Config

/-- The segments that have a file. -/
def segmentsOn (config : Config) (disk : Disk) : Set UInt64 :=
  {id | config.fileBytes disk (.segment id) ≠ none}

/-- The segment holds these records one behind the other, and nothing else. Each of them starts below the
capacity, and together they are no longer than that, unless there is only one. -/
structure Holds (config : Config) (disk : Disk) (id : UInt64) (records : List Record) : Prop where
  exists_read : ∃ contents, disk.read (config.segmentFile id) = .ok contents ∧
    contents.toBytes = Record.encodeAll records
  start_lt {front : List Record} {record : Record} {rest : List Record} :
    records = front ++ record :: rest → (Record.encodeAll front).length < config.capacity.toNat
  length_le : (Record.encodeAll records).length ≤ config.capacity.toNat ∨ records.length = 1

end Config

namespace ValueLog

/-- What is true of the segments and the bindings of an open log. -/
structure Sound (config : Config) (log : ValueLog) (disk : Disk) : Prop where
  range?_eq : config.range? disk = some log.range
  first_le_active : log.range.first ≤ log.active.id
  next_eq : log.range.next.toNat = log.active.id.toNat + 1
  active_eq : disk.nodeAt (config.segmentFile log.active.id) = .ok (.file log.active.file)
  active_length : (disk.contents log.active.file).length = log.active.length
  exists_records {id : UInt64} : log.range.first ≤ id → id < log.range.next →
    ∃ records, config.Holds disk id records
  exists_record {key : Bytes} {address : UInt64} :
    log.index.applied[key]? = some address ∨ log.index.staged[key]? = some address →
      ∃ position front record rest,
        Position.ofAddress? address config.capacity = some position ∧
        log.range.first ≤ position.segment ∧ position.segment < log.range.next ∧
        config.Holds disk position.segment (front ++ record :: rest) ∧
        position.offset = (Record.encodeAll front).length ∧ record.key = key

/-- What has become of a value log: whether it is open, its disk, the addresses of all records that were
stored so far, and all segments that had a file. -/
structure History where
  log : Option ValueLog
  disk : Disk
  addresses : List Nat
  segments : Set UInt64

namespace History

/-- Nothing has happened on the disk. -/
def start (disk : Disk) : History := ⟨none, disk, [], ∅⟩

/-- The history with what is there now, and the addresses of the records that were stored meanwhile. -/
def next (history : History) (config : Config) (log : Option ValueLog) (disk : Disk)
    (addresses : List Nat) : History :=
  ⟨log, disk, history.addresses ++ addresses, history.segments ∪ config.segmentsOn disk⟩

/-- The effects of an operation that may come next. -/
inductive Performs (config : Config) (history : History) : List Effect → Prop
  /-- The log is opened. -/
  | opening : history.log = none →
      Performs config history ((openAt config).run.run (ofDisk history.disk)).2.effects.reverse
  /-- A value is put. -/
  | put {log : ValueLog} {key value : Bytes} : history.log = some log → Record.Small ⟨key, value⟩ →
      Performs config history ((log.put key value).run (ofDisk history.disk)).2.effects.reverse
  /-- A barrier is waited for. -/
  | sync {log : ValueLog} : history.log = some log →
      Performs config history (log.sync.run (ofDisk history.disk)).2.effects.reverse
  /-- The log is closed. -/
  | close {log : ValueLog} : history.log = some log →
      Performs config history (log.close.run.run (ofDisk history.disk)).2.effects.reverse

/-- What may come next. -/
inductive Step (config : Config) (history : History) : History → Prop
  /-- The log was opened. The records that it has then are those that recovery has stored. -/
  | opened {log : ValueLog} {report : Recovery} {drive : Drive} : history.log = none →
    (openAt config).run.run (ofDisk history.disk) = (.ok (log, report), drive) →
      Step config history (history.next config (some log) drive.disk
        ((config.scanned drive.disk log.range).map Prod.fst))
  /-- A value was put. Its address is staged. -/
  | put {log log' : ValueLog} {key value : Bytes} {drive : Drive} : history.log = some log →
    Record.Small ⟨key, value⟩ →
    (log.put key value).run (ofDisk history.disk) = ((log', .ok ()), drive) →
      Step config history (history.next config (some log') drive.disk
        (log'.index.staged[key]?.map UInt64.toNat).toList)
  /-- A barrier was completed. -/
  | synced {log log' : ValueLog} {drive : Drive} : history.log = some log →
    log.sync.run (ofDisk history.disk) = (log', drive) →
      Step config history (history.next config (some log') drive.disk [])
  /-- The log was closed. -/
  | closed {log : ValueLog} {drive : Drive} : history.log = some log →
    log.close.run.run (ofDisk history.disk) = (.ok (), drive) →
      Step config history (history.next config none drive.disk [])
  /-- An operation ended in a crash, behind any of its effects or in a write, and the power may have gone
  with it. -/
  | crashed {effects : List Effect} {left last : Disk} : history.Performs config effects →
    history.disk.Crashes effects left → left.Loses last →
      Step config history (history.next config none last [])

/-- What is true of a history. -/
structure Represented (config : Config) (history : History) : Prop where
  /-- No record was stored in front of an earlier one. -/
  ascending : history.addresses.Pairwise (· < ·)
  /-- A segment that has gone does not come again. -/
  fresh {history' : History} {id : UInt64} : Step config history history' →
    id ∈ config.segmentsOn history'.disk → id ∉ config.segmentsOn history.disk → id ∉ history.segments
  /-- The segments of a log that was opened are new ones. -/
  opened {log : ValueLog} {report : Recovery} {drive : Drive} {id : UInt64} : history.log = none →
    (openAt config).run.run (ofDisk history.disk) = (.ok (log, report), drive) →
      log.range.first ≤ id → id < log.range.next → id ∉ history.segments
  /-- The segments and the bindings of an open log are in order. -/
  sound {log : ValueLog} : history.log = some log → log.Sound config history.disk
  /-- A write goes well unless it runs out of addresses, gets a new address, and begins a segment exactly
  if the record does not fit behind another one. -/
  put {log : ValueLog} {key value : Bytes} : history.log = some log → Record.Small ⟨key, value⟩ →
    match (log.put key value).run (ofDisk history.disk) with
    | ((log', .ok ()), _) =>
      (∃ address, log'.index.staged[key]? = some address ∧
        ∀ earlier ∈ history.addresses, earlier < address.toNat) ∧
      log'.active.id.toNat = log.active.id.toNat + (if 0 < log.active.length ∧
        config.capacity.toNat < log.active.length + Record.length ⟨key, value⟩ then 1 else 0) ∧
      (log'.active.id ≠ log.active.id → log'.active.id ∉ history.segments)
    | ((_, .error fault), _) => fault = .arithmetic

end History

variable {config : Config} {log : ValueLog} {start disk : Disk} {origin : UInt64}
  {base : List (Bytes × UInt64)} {applied staged : Found}

/-! ## The shape of the files -/

/-- A segment in shape holds records. -/
theorem holds_of_shaped {id : UInt64} {bytes : Bytes} (hreaches : disk.Reaches (config.segmentFile id))
    (hbytes : config.fileBytes disk (.segment id) = some bytes)
    (hshaped : Scan.Shaped config.capacity.toNat bytes) : ∃ records,
      config.Holds disk id records ∧
        Scan.recordsIn config.capacity.toNat bytes = Record.placed 0 records := by
  obtain ⟨⟨records, rfl, hsmall, hstarts⟩, hlength⟩ := hshaped
  have hfound := Scan.recordsIn_encodeAll hsmall hstarts
  obtain ⟨⟨file, _⟩, hleaf, rfl⟩ := Option.map_eq_some_iff.mp hbytes
  obtain ⟨hnode, hcontents⟩ := Disk.leaf_eq_some_iff.mp hleaf
  have hnode : disk.node? (config.segmentFile id).place = some (.file file) := hnode
  refine ⟨records, ⟨⟨disk.contents file, ?_, hcontents⟩, fun hsplit => ?_, ?_⟩, hfound⟩
  · simp only [Disk.read, Disk.fileAt, hreaches.nodeAt_eq, hnode]
    rfl
  · exact hstarts (_, _) (Record.mem_placed_iff.mpr ⟨_, _, hsplit, (Nat.zero_add _).symm⟩)
  · rwa [hfound, Record.length_placed] at hlength

namespace Serves

/-- A binding of an open log names the start of a record of its key. -/
theorem exists_record_of_binding (h : log.Serves config start origin base applied staged)
    (horderly : log.Orderly config start origin) {key : Bytes} {address : UInt64}
    (hbinding : log.index.applied[key]? = some address ∨ log.index.staged[key]? = some address) :
    ∃ position front record rest,
      Position.ofAddress? address config.capacity = some position ∧
      log.range.first ≤ position.segment ∧ position.segment < log.range.next ∧
      config.Holds start position.segment (front ++ record :: rest) ∧
      position.offset = (Record.encodeAll front).length ∧ record.key = key := by
  -- the binding is the line of a record
  have hentry : ∃ entry ∈ applied ++ staged, entry.2.key = key ∧ UInt64.ofNat entry.1 = address := by
    have hlast : ∀ found : Found, (AddressMap.ofEntries found.lines)[key]? = some address →
        ∃ entry ∈ found, entry.2.key = key ∧ UInt64.ofNat entry.1 = address := by
      intro found hfound
      rw [getElem?_ofEntries, Found.latest_lines] at hfound
      obtain ⟨entry, hlast, haddress⟩ := Option.map_eq_some_iff.mp hfound
      obtain ⟨hmem, hkey⟩ := Found.mem_of_last? hlast
      exact ⟨entry, hmem, hkey, haddress⟩
    rw [h.applied_eq, h.staged_eq] at hbinding
    rcases hbinding with hbinding | hbinding
    · obtain ⟨entry, hmem, hentry⟩ := hlast _ hbinding
      exact ⟨entry, List.mem_append_left _ hmem, hentry⟩
    · obtain ⟨entry, hmem, hentry⟩ := hlast _ hbinding
      exact ⟨entry, List.mem_append_right _ hmem, hentry⟩
  obtain ⟨entry, hmem, rfl, rfl⟩ := hentry
  have hfits := h.fits entry hmem
  rw [← h.scanned_eq] at hmem
  obtain ⟨id, horigin, hnext, hmem⟩ := Config.mem_scanned_iff.mp hmem
  have hle := h.le_active hnext
  obtain ⟨bytes, hbytes, hshaped⟩ := horderly.shaped id horigin hle
  obtain ⟨records, hholds, hfound⟩ := holds_of_shaped (h.reaches.segment_le hle) hbytes hshaped
  rw [Config.scannedSegment, hbytes, Option.getD_some, hfound] at hmem
  obtain ⟨⟨offset, record⟩, hplaced, rfl⟩ := List.mem_map.mp hmem
  obtain ⟨front, rest, rfl, hoffset⟩ := Record.mem_placed_iff.mp hplaced
  rw [Nat.zero_add] at hoffset
  refine ⟨⟨id, offset⟩, front, record, rest, Position.ofAddress?_address? ?_ ?_, ?_, hnext, hholds,
    hoffset, rfl⟩
  · rw [hoffset]
    exact hholds.start_lt rfl
  · rw [Position.address?_eq_some_iff, UInt64.toNat_ofNat_of_lt' hfits]
  · rw [h.first_eq]
    exact horigin

/-- The segments and the bindings of an open log are in order. -/
theorem sound (h : log.Serves config start origin base applied staged)
    (horderly : log.Orderly config start origin) : log.Sound config start where
  range?_eq := h.range?_eq
  first_le_active := h.first_eq ▸ h.origin_le
  next_eq := h.next_eq
  active_eq := by
    obtain ⟨bytes, hleaf, -, -⟩ := h.active_leaf
    have hnode : start.node? (config.segmentFile log.active.id).place = some (.file log.active.file) :=
      (Disk.leaf_eq_some_iff.mp hleaf).1
    rw [h.reaches.nodeAt_eq, hnode]
  active_length := by
    obtain ⟨bytes, hleaf, hlength, -⟩ := h.active_leaf
    rw [Disk.length_contents_of_leaf hleaf, hlength]
  exists_records {id} hid hid' := by
    have hle := h.le_active hid'
    obtain ⟨bytes, hbytes, hshaped⟩ := horderly.shaped id (h.first_eq ▸ hid) hle
    obtain ⟨records, hholds, -⟩ := holds_of_shaped (h.reaches.segment_le hle) hbytes hshaped
    exact ⟨records, hholds⟩
  exists_record hbinding := h.exists_record_of_binding horderly hbinding

end Serves

/-! ## What a crash leaves -/

/-- A loss of power takes nothing from the files that were recorded, and makes no segment. -/
theorem guards_of_loses {least : UInt64} {left : Disk} (h : start.WellFormed)
    (hloses : start.Loses left) : config.Guards least start left where
  recorded hstart := by
    have hspares := hloses.spares h
    have hfirm : ∀ file, start.Firm (config.place file) →
        config.place file ∉ {place | ¬ start.Firm place} := fun _ => not_not.mpr
    refine ⟨hspares.firm (hfirm _ hstart.firm_range) hstart.firm_range,
      hspares.firm (hfirm _ hstart.firm_capacity) hstart.firm_capacity, ?_⟩
    rw [Config.range?_congr (Config.fileBytes_of_changes hspares.toChanges
      (hfirm _ hstart.firm_range))]
    exact hstart.exists_range
  vacant id _ hnone := by
    have hfirm : start.Firm (config.place (.segment id)) := Disk.firm_of_vacant hnone
    rw [Config.fileBytes_of_changes (hloses.spares h).toChanges (not_not.mpr hfirm), hnone]

/-- Files from which a value log can be opened can do without the bytes that have not reached the
medium. -/
theorem openable_of_loses {old : SegmentRange} {least : UInt64} {left : Disk}
    (h : config.Openable start old) (hrecorded : config.Recorded least start)
    (hloses : start.Loses left) : config.Openable left old :=
  h.of_changes (hloses.spares h.wellFormed).toChanges (not_not.mpr hrecorded.firm_range)
    (not_not.mpr hrecorded.firm_capacity)
    fun id hid => not_not.mpr (Disk.firm_of_vacant (h.vacant id hid))

/-- What a crash leaves of a session can be opened. -/
theorem openable_of_remains {range : SegmentRange} (h : config.Openable start range)
    (hseparate : config.Separate) {lined records : Found} {left : Disk}
    (hremains : config.Remains start origin range.first base lined records left) :
    ∃ old, config.Openable left old := by
  obtain ⟨next, -, hrange, -, hvacant⟩ := hremains.exists_range
  exact ⟨⟨range.first, next⟩, h.of_session hseparate hremains.changes rfl hrange hvacant⟩

/-- Closing a log spares all files but the index log and the one beside it. -/
theorem spares_close (h : log.Tracks config start origin base applied) (hseparate : config.Separate) :
    Achieves log.close start (start.Spares {config.besideIndex.place, config.place .index})
      (fun _ => start.Spares {config.besideIndex.place, config.place .index}) (fun _ _ => True) := by
  have hsynced : Meets log.sync start
      (start.Spares {config.besideIndex.place, config.place .index})
      fun log' _ => log'.index.path = config.indexLog := by
    refine (spares_sync h.wellFormed log).mono (fun _ hspares => hspares.mono (Set.empty_subset _)) ?_
    intro log' _ _ hsynced
    rw [hsynced.1]
    exact h.path_eq
  refine Achieves.bind (achieves_lift hsynced) ?_
  intro synced disk hdisk hpath
  have hclosed : Achieves synced.index.close disk
      (disk.Spares {config.besideIndex.place, config.place .index}) (fun _ _ => True)
      (fun _ _ => True) := by
    have hne := hseparate.besideIndex .index
    rw [Config.place, Config.filePath, Config.besideIndex, ← hpath] at hne ⊢
    exact Index.spares_close hdisk.wellFormed hne
  exact hclosed.mono (fun _ hlast => hdisk.trans hlast) (fun _ _ hlast _ => hdisk.trans hlast)
    fun _ _ _ hfault => hfault

/-! ## What a history keeps -/

namespace History

/-- All addresses and all segments so far lie in front of the segment `next`. -/
structure Accounted (config : Config) (history : History) (next : UInt64) : Prop where
  ascending : history.addresses.Pairwise (· < ·)
  address_lt {address : Nat} : address ∈ history.addresses →
    address < next.toNat * config.capacity.toNat
  segment_lt {id : UInt64} : id ∈ history.segments → id < next

/-- While no log is open, one can be opened, and the range is on the medium. -/
structure Stopped (config : Config) (history : History) (old : SegmentRange) : Prop where
  openable : config.Openable history.disk old
  recorded : config.Recorded old.next history.disk
  accounted : history.Accounted config old.next

/-- While a log is open, the records of its session come behind those of earlier ones. -/
structure Running (config : Config) (history : History) (log : ValueLog) (origin : UInt64)
    (base : List (Bytes × UInt64)) (past : List Nat) (applied staged : Found) : Prop
    extends log.Serves config history.disk origin base applied staged where
  orderly : log.Orderly config history.disk origin
  openable : config.Openable history.disk log.range
  recorded : config.Recorded log.range.next history.disk
  capacity_ne : config.capacity ≠ 0
  addresses_eq : history.addresses = past ++ (applied ++ staged).map Prod.fst
  past_ascending : past.Pairwise (· < ·)
  past_lt {address : Nat} : address ∈ past → address < origin.toNat * config.capacity.toNat
  segment_lt {id : UInt64} : id ∈ history.segments → id < log.range.next

/-- What is kept, with the next segment. -/
def Kept (config : Config) (history : History) (next : UInt64) : Prop :=
  match history.log with
  | none => ∃ old, old.next = next ∧ Stopped config history old
  | some log => log.range.next = next ∧
    ∃ origin base past applied staged, Running config history log origin base past applied staged

variable {history history' : History} {next least : UInt64} {old : SegmentRange} {past : List Nat}

/-- Segments that are there are in front of the next one. -/
theorem segment_lt_next (hvacant : config.Vacant disk next) {id : UInt64}
    (hid : id ∈ config.segmentsOn disk) : id < next :=
  UInt64.not_le.mp fun hle => hid (hvacant id hle)

/-- Segments that are there lie in front of the next one. -/
theorem segment_lt_of_next {log : Option ValueLog} {addresses : List Nat}
    (hsegment : ∀ id ∈ history.segments, id < least) (hle : least ≤ next)
    (hvacant : config.Vacant disk next) {id : UInt64}
    (hid : id ∈ (history.next config log disk addresses).segments) : id < next := by
  rcases hid with hid | hid
  · exact UInt64.lt_of_lt_of_le (hsegment id hid) hle
  · exact segment_lt_next hvacant hid

/-- A recorded range is the one in the range file. -/
theorem recorded_next {range : SegmentRange} (h : config.Recorded least disk)
    (hrange : config.range? disk = some range) :
    least ≤ range.next ∧ config.Recorded range.next disk := by
  obtain ⟨found, hfound, hle⟩ := h.exists_range
  obtain rfl : found = range := Option.some.inj (hfound.symm.trans hrange)
  exact ⟨hle, { h with exists_range := ⟨found, hfound, UInt64.le_refl _⟩ }⟩

/-- Behind a session that can be opened again, nothing is lost of what was recorded. -/
theorem Accounted.stopped {left last : Disk} (h : history.Accounted config next)
    (hopen : config.Openable left old) (hrecorded : config.Recorded next left)
    (hloses : left.Loses last) :
    Stopped config (history.next config none last []) old := by
  obtain ⟨hle, hrecorded⟩ := recorded_next hrecorded hopen.range_eq
  have hopen' := openable_of_loses hopen hrecorded hloses
  refine ⟨hopen', (guards_of_loses hopen.wellFormed hloses).recorded hrecorded, ?_, ?_, ?_⟩
  · rw [History.next, List.append_nil]
    exact h.ascending
  · intro address hmem
    rw [History.next, List.append_nil] at hmem
    exact Nat.lt_of_lt_of_le (h.address_lt hmem)
      (Nat.mul_le_mul_right _ (UInt64.le_iff_toNat_le.mp hle))
  · exact segment_lt_of_next (fun id => h.segment_lt) hle hopen'.vacant

/-- The records of a session lie behind those of earlier ones, and in front of the next segment. -/
theorem Running.accounted (h : Running config history log origin base past applied staged) :
    history.Accounted config log.range.next := by
  -- a scan from `origin` finds no address in front of it, and none behind the last segment
  have hbounds : ∀ entry ∈ applied ++ staged, origin.toNat * config.capacity.toNat ≤ entry.1 ∧
      entry.1 < log.range.next.toNat * config.capacity.toNat := by
    intro entry hentry
    rw [← h.scanned_eq] at hentry
    obtain ⟨id, horigin, hnext, hmem⟩ := Config.mem_scanned_iff.mp hentry
    obtain ⟨hlow, hhigh⟩ := Config.bounds_of_mem_scannedSegment hmem
    exact ⟨Nat.le_trans (Nat.mul_le_mul_right _ (UInt64.le_iff_toNat_le.mp horigin)) hlow,
      Nat.lt_of_lt_of_le hhigh (Nat.mul_le_mul_right _ (UInt64.lt_iff_toNat_lt.mp hnext))⟩
  have horder : origin.toNat * config.capacity.toNat ≤
      log.range.next.toNat * config.capacity.toNat :=
    Nat.mul_le_mul_right _ (UInt64.le_iff_toNat_le.mp h.origin_le_next)
  refine ⟨?_, fun {address} hmem => ?_, h.segment_lt⟩
  · rw [h.addresses_eq]
    refine List.pairwise_append.mpr ⟨h.past_ascending, ?_, ?_⟩
    · rw [List.pairwise_map, ← h.scanned_eq]
      exact Config.ascending_scanned _ _ _
    · intro earlier hearlier address hmem
      obtain ⟨entry, hentry, rfl⟩ := List.mem_map.mp hmem
      exact Nat.lt_of_lt_of_le (h.past_lt hearlier) (hbounds entry hentry).1
  · rw [h.addresses_eq] at hmem
    rcases List.mem_append.mp hmem with hmem | hmem
    · exact Nat.lt_of_lt_of_le (h.past_lt hmem) horder
    · obtain ⟨entry, hentry, rfl⟩ := List.mem_map.mp hmem
      exact (hbounds entry hentry).2

/-! ## The steps -/

/-- A log that is opened runs, and an opening that crashes can be followed by another one. -/
theorem Stopped.opening (h : Stopped config history old) (hseparate : config.Separate) :
    Achieves (openAt config) history.disk
      (fun left => config.Guards old.next history.disk left ∧ ∃ range, config.Openable left range)
      (fun state disk => old.next ≤ state.1.range.first ∧ config.Guards old.next history.disk disk ∧
        ∃ base copies, Running config (history.next config (some state.1) disk
          ((config.scanned disk state.1.range).map Prod.fst)) state.1 old.next base history.addresses
            copies [])
      (fun _ _ => True) := by
  have hparent := h.openable.room.parent
  -- the range that is loaded is the one that the log can be opened with
  have hloaded : ∀ other, (history.disk.Reaches config.rangeFile →
      config.range? history.disk = some other) → old.next ≤ other.next := by
    intro other hother
    have hsame := hother h.openable.room.range.toReaches
    obtain rfl := Option.some.inj (h.openable.range_eq.symm.trans hsame)
    exact UInt64.le_refl _
  have hopened : Achieves (openAt config) history.disk (fun left => ∀ old,
      config.Openable history.disk old → config.Preserves history.disk old left) _ _ :=
    achieves_openAt h.openable.wellFormed hseparate hparent fun _ hleft => hleft
  refine ((guards_openAt h.openable.wellFormed hseparate hparent hloaded).and hopened).mono ?_ ?_
    fun _ _ _ _ => trivial
  · intro left hleft
    obtain ⟨range, hrange, -⟩ := h.openable.of_preserves (hleft.2 old h.openable)
    exact ⟨hleft.1, range, hrange⟩
  intro state disk hlast hdone
  obtain ⟨hguards, -⟩ := hlast
  obtain ⟨⟨hsettled, -⟩, hvalid, -, -, -, -, old', base, copies, hopened⟩ := hdone
  obtain rfl : old = old' := Option.some.inj (h.openable.range_eq.symm.trans hopened.range_eq)
  have hvacant := hopened.vacant h.openable.vacant
  obtain ⟨hle, hrecorded⟩ := recorded_next (hguards.recorded h.recorded) hopened.range?_eq
  have hscanned : config.scanned disk state.1.range = copies ++ [] := by
    rw [← hopened.scanned_eq, ← hopened.first_eq]
  exact ⟨UInt64.le_of_eq hopened.first_eq.symm, hguards, base, copies, {
    toServes := hopened.toServes
    orderly := hopened.first_eq ▸ hsettled.toOrderly
    openable := hopened.openable h.openable
    recorded := hrecorded
    capacity_ne := capacity_ne_of_validate hvalid
    addresses_eq := by rw [History.next, hscanned]
    past_ascending := h.accounted.ascending
    past_lt := h.accounted.address_lt
    segment_lt := segment_lt_of_next (fun id => h.accounted.segment_lt) hle hvacant }⟩

/-- A write keeps a log running, and what a crash in it leaves can be opened. -/
theorem Running.put (h : Running config history log origin base past applied staged)
    (hseparate : config.Separate) {key value : Bytes} (hsmall : Record.Small ⟨key, value⟩) :
    Meets (log.put key value) history.disk
      (fun left => config.Guards log.range.next history.disk left ∧
        ∃ range, config.Openable left range)
      fun result disk => config.Guards log.range.next history.disk disk ∧
        (result.2 = .error .arithmetic ∨ result.2 = .ok () ∧ result.1.active.id =
          (if log.isFull (Record.length ⟨key, value⟩) then log.range.next else log.active.id) ∧
        ∃ address, result.1.index.staged[key]? = some address ∧
          Running config (history.next config (some result.1) disk [address.toNat]) result.1 origin
            base past applied (staged ++ [(address.toNat, ⟨key, value⟩)])) := by
  have hroom : config.HasRoom history.disk log.range.next :=
    h.openable.room.mono h.openable.order
  have hstaged : Meets (log.put key value) history.disk (fun _ => True) _ :=
    h.toServes.put hseparate h.capacity_ne hroom hsmall
  refine ((h.orderly.put h.toTracks hseparate h.capacity_ne (UInt64.le_refl _) hsmall).and
    hstaged).mono ?_ ?_
  · intro left hleft
    obtain ⟨⟨hguards, hremains⟩, -⟩ := hleft
    obtain ⟨lined, records, hremains⟩ := hremains h.openable.vacant
    exact ⟨hguards, openable_of_remains h.openable hseparate hremains⟩
  intro result disk hlast hdone
  obtain ⟨⟨hguards, -⟩, -⟩ := hlast
  obtain ⟨horderly, hfault | ⟨hok, address, hnext, hchanges, hvacant, hserves⟩⟩ := hdone
  · exact ⟨hguards, .inl hfault⟩
  obtain ⟨horderly, hactive⟩ := horderly hok
  have hvacant := hvacant h.openable.vacant
  have hfits : address < UInt64.size := hserves.fits (address, ⟨key, value⟩) (by simp)
  -- the address that was staged last is the one of the new record
  have hbound : result.1.index.staged[key]? = some (UInt64.ofNat address) := by
    rw [hserves.staged_eq, getElem?_ofEntries, Found.lines_append, Found.lines, Found.lines,
      List.map_singleton]
    exact (latest_concat _ _ _ _).trans (if_pos rfl)
  have hword : (UInt64.ofNat address).toNat = address := UInt64.toNat_ofNat_of_lt' hfits
  refine ⟨hguards, .inr ⟨hok, hactive, UInt64.ofNat address, hbound, ?_⟩⟩
  rw [hword]
  exact {
    toServes := hserves
    orderly := horderly
    openable := h.openable.of_session hseparate hchanges (hserves.first_eq.trans h.first_eq.symm)
      hserves.range?_eq hvacant
    recorded := (recorded_next (hguards.recorded h.recorded) hserves.range?_eq).2
    capacity_ne := h.capacity_ne
    addresses_eq := by
      rw [History.next, h.addresses_eq]
      simp
    past_ascending := h.past_ascending
    past_lt := h.past_lt
    segment_lt := segment_lt_of_next (fun id => h.segment_lt) hnext hvacant }

/-- A barrier keeps a log running, and spares its files. -/
theorem Running.sync (h : Running config history log origin base past applied staged) :
    Meets log.sync history.disk (history.disk.Spares ∅) fun log' disk =>
      history.disk.Spares ∅ disk ∧ Running config (history.next config (some log') disk []) log' origin
        base past (applied ++ staged) [] ∧ log'.range = log.range := by
  have hsynced : Meets log.sync history.disk (fun _ => True) _ := h.toServes.sync
  refine ((spares_sync h.wellFormed log).and hsynced).mono (fun _ hboth => hboth.1) ?_
  intro log' disk hlast hdone
  obtain ⟨-, hactive, hrange, -, -, hserves⟩ := hdone
  have hspares := hlast.1
  -- no file goes or comes with a barrier, so the log can be opened as before
  have hopen : config.Openable disk log'.range := hrange ▸ h.openable.of_changes hspares.toChanges
    (Set.notMem_empty _) (Set.notMem_empty _) fun _ _ => Set.notMem_empty _
  refine ⟨hspares, {
    toServes := hserves
    orderly := (h.orderly.of_spares hspares fun _ _ => Set.notMem_empty _).congr hactive
    openable := hopen
    recorded := hrange ▸ (Config.guards_of_spares_empty hspares).recorded h.recorded
    capacity_ne := h.capacity_ne
    addresses_eq := by
      rw [History.next, h.addresses_eq]
      simp
    past_ascending := h.past_ascending
    past_lt := h.past_lt
    segment_lt := segment_lt_of_next (fun id => h.segment_lt) (hrange ▸ UInt64.le_refl _)
      hopen.vacant }, hrange⟩

/-- Without an open log, the store is stopped. -/
theorem Kept.stopped (h : Kept config history next) (hlog : history.log = none) :
    ∃ old, old.next = next ∧ Stopped config history old := by
  rwa [Kept, hlog] at h

/-- With an open log, it is running. -/
theorem Kept.running (h : Kept config history next) (hlog : history.log = some log) :
    log.range.next = next ∧ ∃ origin base past applied staged,
      Running config history log origin base past applied staged := by
  rwa [Kept, hlog] at h

/-- Either way its addresses are accounted for. -/
theorem Kept.accounted (h : Kept config history next) : history.Accounted config next := by
  cases hlog : history.log with
  | none =>
    obtain ⟨old, rfl, hstopped⟩ := h.stopped hlog
    exact hstopped.accounted
  | some log =>
    obtain ⟨rfl, _, _, _, _, _, hrunning⟩ := h.running hlog
    exact hrunning.accounted

theorem Kept.recorded (h : Kept config history next) : config.Recorded next history.disk := by
  cases hlog : history.log with
  | none =>
    obtain ⟨old, rfl, hstopped⟩ := h.stopped hlog
    exact hstopped.recorded
  | some log =>
    obtain ⟨rfl, _, _, _, _, _, hrunning⟩ := h.running hlog
    exact hrunning.recorded

/-- A barrier and the end of a session write to the index log only. -/
theorem Kept.index (h : Kept config history next) (hseparate : config.Separate)
    (hlog : history.log = some log)
    (hspares : history.disk.Spares {config.besideIndex.place, config.place .index} disk) :
    config.Guards next history.disk disk ∧ ∃ range, config.Openable disk range := by
  obtain ⟨rfl, _, _, _, _, _, hrunning⟩ := h.running hlog
  have hother : ∀ file, file ≠ .index → config.place file ∉
      ({config.besideIndex.place, config.place .index} : Set Location) :=
    fun file => not_mem_indexPlaces hseparate
  exact ⟨Config.guards_of_spares hspares (hother _ (by simp)) (hother _ (by simp))
    fun id _ hmem => absurd hmem (hother _ (by simp)), log.range,
    hrunning.openable.of_changes hspares.toChanges (hother _ (by simp)) (hother _ (by simp))
      fun id _ => hother _ (by simp)⟩

/-- Whatever operation a crash comes in, a log can be opened behind it. -/
theorem Kept.crash (h : Kept config history next) (hseparate : config.Separate)
    {effects : List Effect} {left : Disk} (hperforms : history.Performs config effects)
    (hcrash : history.disk.Crashes effects left) :
    config.Guards next history.disk left ∧ ∃ range, config.Openable left range := by
  cases hperforms with
  | opening hlog =>
    obtain ⟨old, rfl, hstopped⟩ := h.stopped hlog
    exact (hstopped.opening hseparate).during_crash hcrash
  | put hlog hsmall =>
    obtain ⟨rfl, _, _, _, _, _, hrunning⟩ := h.running hlog
    exact (hrunning.put hseparate hsmall).during_crash hcrash
  | sync hlog =>
    obtain ⟨rfl, _, _, _, _, _, hrunning⟩ := h.running hlog
    exact h.index hseparate hlog
      ((hrunning.sync.during_crash hcrash).mono (Set.empty_subset _))
  | close hlog =>
    obtain ⟨rfl, _, _, _, _, _, hrunning⟩ := h.running hlog
    exact h.index hseparate hlog ((spares_close hrunning.toTracks hseparate).during_crash hcrash)

/-- Behind the end of a session, what is kept stays so, also where the power was lost. -/
theorem Kept.ended (h : Kept config history next) {left last : Disk}
    (hleft : config.Guards next history.disk left ∧ ∃ range, config.Openable left range)
    (hloses : left.Loses last) :
    config.Guards next history.disk last ∧
      ∃ next', Kept config (history.next config none last []) next' := by
  obtain ⟨hguards, range, hopen⟩ := hleft
  have hstopped := h.accounted.stopped hopen (hguards.recorded h.recorded) hloses
  exact ⟨hguards.trans (guards_of_loses hopen.wellFormed hloses), range.next, range, rfl, hstopped⟩

/-- Whatever comes next, what is kept stays so, and no old segment comes again. -/
theorem Kept.step (h : Kept config history next) (hseparate : config.Separate)
    (hstep : Step config history history') :
    config.Guards next history.disk history'.disk ∧ ∃ next', Kept config history' next' := by
  cases hstep with
  | opened hlog hrun =>
    obtain ⟨old, rfl, hstopped⟩ := h.stopped hlog
    have hafter := (hstopped.opening hseparate).after_run_ofDisk
    rw [hrun] at hafter
    obtain ⟨-, hguards, base, copies, hrunning⟩ := hafter
    exact ⟨hguards, _, rfl, _, _, _, _, _, hrunning⟩
  | put hlog hsmall hrun =>
    obtain ⟨rfl, _, _, _, _, _, hrunning⟩ := h.running hlog
    have hafter := (hrunning.put hseparate hsmall).after_run_ofDisk
    rw [hrun] at hafter
    -- the write of this step went well
    obtain ⟨hguards, hfault | ⟨-, -, address, hbound, hrunning⟩⟩ := hafter
    · cases hfault
    · dsimp only at hbound hrunning
      rw [hbound]
      exact ⟨hguards, _, rfl, _, _, _, _, _, hrunning⟩
  | synced hlog hrun =>
    obtain ⟨rfl, _, _, _, _, _, hrunning⟩ := h.running hlog
    have hafter := hrunning.sync.after_run_ofDisk
    rw [hrun] at hafter
    obtain ⟨hspares, hrunning, -⟩ := hafter
    exact ⟨Config.guards_of_spares_empty hspares, _, rfl, _, _, _, _, _, hrunning⟩
  | closed hlog hrun =>
    obtain ⟨rfl, _, _, _, _, _, hrunning⟩ := h.running hlog
    have hafter := (spares_close hrunning.toTracks hseparate).after_run_ofDisk
    rw [hrun] at hafter
    exact h.ended (h.index hseparate hlog hafter) (.refl _)
  | crashed hperforms hcrash hloses => exact h.ended (h.crash hseparate hperforms hcrash) hloses

/-- An empty directory keeps what is to be kept. -/
theorem kept_of_empty {base : Config} {directory : Path} (h : disk.WellFormed)
    (hempty : disk.EmptyDirectory directory) :
    Kept (base.withDirectory directory) (.start disk) 0 := by
  have hopen := @Config.openable_of_empty disk base directory h hempty
  have hfirm : ∀ file, disk.Firm ((base.withDirectory directory).place file) := fun file =>
    Disk.firm_of_vacant (Config.fileBytes_of_empty hempty file)
  exact ⟨SegmentRange.empty, rfl, hopen,
    ⟨hfirm _, hfirm _, _, hopen.range_eq, UInt64.le_refl _⟩, .nil, nofun, nofun⟩

/-- What is kept says what is true of a history. -/
theorem Kept.represented (h : Kept config history next) (hseparate : config.Separate) :
    Represented config history where
  ascending := h.accounted.ascending
  fresh {history' id} hstep hthere hmissing hmem := by
    -- a segment that was there is in front of the next one, and none comes to be there
    have hguards := (h.step hseparate hstep).1
    exact hthere (hguards.vacant id (h.accounted.segment_lt hmem) (not_not.mp hmissing))
  opened {log report drive id} hlog hrun hfirst _ hmem := by
    obtain ⟨old, rfl, hstopped⟩ := h.stopped hlog
    have hafter := (hstopped.opening hseparate).after_run_ofDisk
    rw [hrun] at hafter
    have hlt := UInt64.lt_of_lt_of_le (h.accounted.segment_lt hmem) hafter.1
    exact UInt64.lt_irrefl _ (UInt64.lt_of_lt_of_le hlt hfirst)
  sound hlog := by
    obtain ⟨rfl, _, _, _, _, _, hrunning⟩ := h.running hlog
    exact hrunning.toServes.sound hrunning.orderly
  put {log key value} hlog hsmall := by
    obtain ⟨rfl, _, _, _, _, _, hrunning⟩ := h.running hlog
    have hafter := (hrunning.put hseparate hsmall).after_run_ofDisk
    revert hafter
    rcases (log.put key value).run (ofDisk history.disk) with ⟨⟨log', fault | _⟩, drive⟩
    · intro hafter
      obtain ⟨-, hfault | ⟨hok, -⟩⟩ := hafter
      · exact Except.error.inj hfault
      · cases hok
    · intro hafter
      obtain ⟨-, hfault | ⟨-, hactive, address, hbound, hrunning'⟩⟩ := hafter
      · cases hfault
      dsimp only at hactive
      refine ⟨⟨address, hbound, fun earlier hearlier => ?_⟩, ?_, fun hnew hmem => ?_⟩
      · -- the new address is the last one of the longer history
        have hascending := hrunning'.accounted.ascending
        exact (List.pairwise_append.mp hascending).2.2 earlier hearlier _ List.mem_cons_self
      · rw [hactive, isFull, hrunning.capacity_eq]
        by_cases hfull : 0 < log.active.length ∧
            config.capacity.toNat < log.active.length + Record.length ⟨key, value⟩
        · rw [if_pos (decide_eq_true hfull), if_pos hfull, hrunning.next_eq]
        · rw [if_neg (by simpa using hfull), if_neg hfull]
          rfl
      · have hfull : log'.active.id = log.range.next := by
          split at hactive
          · exact hactive
          · exact absurd hactive hnew
        have hlt := hrunning.segment_lt hmem
        rw [hfull] at hlt
        exact UInt64.lt_irrefl _ hlt

/-- Whatever happens to a value log from its first opening in an empty directory on, its segments hold
whole records, its bindings name them, and neither an address nor a segment is used a second time. -/
theorem represented_of_lives {base : Config} {directory : Path} {start : Disk} {history : History}
    (hwell : start.WellFormed) (hempty : start.EmptyDirectory directory)
    (hlives : Relation.ReflTransGen (Step (base.withDirectory directory)) (.start start) history) :
    history.Represented (base.withDirectory directory) := by
  have hseparate := Config.separate_withDirectory base directory
  have hkept : ∃ next, Kept (base.withDirectory directory) history next := by
    -- by induction on what has happened; the next segment may change with every step
    induction hlives with
    | refl => exact ⟨0, kept_of_empty hwell hempty⟩
    | tail _ hstep ih =>
      obtain ⟨next, hkept⟩ := ih
      exact (hkept.step hseparate hstep).2
  obtain ⟨next, hkept⟩ := hkept
  exact hkept.represented hseparate

/-- What a crash leaves that comes in a write behind a barrier, when the range file has the next segment and
the segment is not there yet. -/
def halt (log : ValueLog) (disk : Disk) : Disk :=
  let (log, drive) := log.sync.run (ofDisk disk)
  drive.disk.applyAll (((log.put [1] [11]).run (ofDisk drive.disk)).2.effects.reverse.take 5)

set_option synthInstance.maxSize 256 in
/-- Behind a short record comes one that is longer than a segment; a write behind that is interrupted; the
log is opened again and written to. -/
theorem represented_narrow : ∃ history log,
    Relation.ReflTransGen (Step Config.narrow) (.start Disk.fresh) history ∧
      history.log = some log ∧ log.range = ⟨3, 6⟩ ∧ history.addresses = [0, 40, 120, 160, 200] ∧
      history.Represented Config.narrow := by
  have hruns : ∃ opened drive, (openAt Config.narrow).run.run (ofDisk Disk.fresh) = (.ok opened, drive) ∧
      (Config.narrow.scanned drive.disk opened.1.range).map Prod.fst = [] ∧
      ∃ (short : ValueLog) (drive₁ : Drive),
        (opened.1.put [1] [10]).run (ofDisk drive.disk) = ((short, .ok ()), drive₁) ∧
        short.index.staged[([1] : Bytes)]? = some 0 ∧
      ∃ (long : ValueLog) (drive₂ : Drive),
        (short.put [2] (List.replicate 40 7)).run (ofDisk drive₁.disk) = ((long, .ok ()), drive₂) ∧
        long.index.staged[([2] : Bytes)]? = some 40 ∧
      ∃ reopened drive₃,
        (openAt Config.narrow).run.run (ofDisk (halt long drive₂.disk)) = (.ok reopened, drive₃) ∧
        (Config.narrow.scanned drive₃.disk reopened.1.range).map Prod.fst = [120, 160] ∧
      ∃ (last : ValueLog) (drive₄ : Drive),
        (reopened.1.put [1] [11]).run (ofDisk drive₃.disk) = ((last, .ok ()), drive₄) ∧
        last.index.staged[([1] : Bytes)]? = some 200 ∧ last.range = ⟨3, 6⟩ := by
    decide +kernel
  obtain ⟨⟨log, _⟩, drive, hopen, hscanned, short, drive₁, hshort, haddress₁, long, drive₂, hlong,
    haddress₂, ⟨reopened, _⟩, drive₃, hreopen, hscanned', last, drive₄, hlast, haddress₃,
    hrange⟩ := hruns
  dsimp only at hscanned hshort hscanned' hlast
  have hopened : Step Config.narrow (.start Disk.fresh) _ := .opened rfl hopen
  have hwritten := ((Relation.ReflTransGen.single hopened).tail (.put rfl (by decide) hshort)).tail
    (.put rfl (by decide) hlong)
  have hsynced := hwritten.tail (.synced rfl rfl)
  -- the crash comes in a write, and what it leaves is opened again
  have hcrashed := hsynced.tail (.crashed (.put rfl (show Record.Small ⟨[1], [11]⟩ by decide))
    (Disk.crashes_take _ _ 5) (.refl _))
  have hlives := (hcrashed.tail (.opened rfl hreopen)).tail (.put rfl (by decide) hlast)
  refine ⟨_, last, hlives, rfl, hrange, ?_,
    represented_of_lives Disk.wellFormed_fresh Disk.emptyDirectory_fresh hlives⟩
  simp only [next, start, haddress₁, haddress₂, haddress₃, hscanned, hscanned']
  rfl

end History

end ValueLog

end BarrierStore
