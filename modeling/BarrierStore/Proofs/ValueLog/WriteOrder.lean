import BarrierStore.Proofs.Disk.Obstacles
import BarrierStore.Proofs.ValueLog.Opening
import BarrierStore.Proofs.ValueLog.Placement
import Mathlib.Data.Prod.Lex

/-!
# Addresses and the order of writing

A log fills one segment after the other, each from its start. So of two records the one with the smaller
segment id was written first, and in one segment the one with the smaller offset. Addresses are in that
order, whatever the capacity: recovery, which compares addresses only, compares when records were written.

The module introduces:

* the order of `Position`s, by segments first and then by offsets;
* `ValueLog.recordsOf` — the records that a scan of a segment finds, with their positions, and
  `ValueLog.Survives`, the position of the record that recovery keeps of a key;
* `ValueLog.tip` — the position behind the last record, and `ValueLog.Writes`, any writes and barriers on
  an open log.

Main statements: `Position.address_le_iff`, `ValueLog.survivors_eq_some_iff`,
`ValueLog.Written.address_le_iff` on what `ValueLog.Writes.written` gives, and all of it together in
`ValueLog.ordersWrites`.
-/

namespace BarrierStore

open Drive

namespace Position

/-! ## The order of positions -/

/-- The segment, and then the offset. -/
def rank (position : Position) : ℕ ×ₗ ℕ :=
  toLex (position.segment.toNat, position.offset)

/-- Positions with the same rank are the same. -/
theorem rank_injective : Function.Injective rank := by
  rintro ⟨segment, offset⟩ ⟨segment', offset'⟩ h
  obtain ⟨hsegment, hoffset⟩ := Prod.mk.inj (toLex_inj.mp h)
  exact congrArg₂ Position.mk (UInt64.toNat_inj.mp hsegment) hoffset

instance : PartialOrder Position :=
  PartialOrder.lift rank rank_injective

variable {p q : Position} {capacity a b : UInt64}

/-- A position comes before those in later segments, and before those behind it in its own. -/
theorem le_iff :
    p ≤ q ↔ p.segment < q.segment ∨ p.segment = q.segment ∧ p.offset ≤ q.offset := by
  rw [UInt64.lt_iff_toNat_lt, ← UInt64.toNat_inj]
  exact Prod.Lex.toLex_le_toLex

theorem lt_iff :
    p < q ↔ p.segment < q.segment ∨ p.segment = q.segment ∧ p.offset < q.offset := by
  rw [UInt64.lt_iff_toNat_lt, ← UInt64.toNat_inj]
  exact Prod.Lex.toLex_lt_toLex

/-- Below the capacity, a position in an earlier segment comes to less than any in a later one. -/
theorem number_le_iff {capacity : Nat} (hp : p.offset < capacity) (hq : q.offset < capacity) :
    p.segment.toNat * capacity + p.offset ≤ q.segment.toNat * capacity + q.offset ↔ p ≤ q := by
  rw [le_iff, UInt64.lt_iff_toNat_lt, ← UInt64.toNat_inj]
  rcases Nat.lt_trichotomy p.segment.toNat q.segment.toNat with hlt | heq | hgt
  · -- a segment more comes to a capacity more, which no offset makes up for
    have hsegments := Nat.mul_le_mul_right capacity (Nat.succ_le_of_lt hlt)
    rw [Nat.succ_mul] at hsegments
    omega
  · rw [heq]
    omega
  · have hsegments := Nat.mul_le_mul_right capacity (Nat.succ_le_of_lt hgt)
    rw [Nat.succ_mul] at hsegments
    omega

/-- Addresses are in the order of the positions that they name. -/
theorem address_le_iff (hp : p.offset < capacity.toNat) (hq : q.offset < capacity.toNat)
    (ha : p.address? capacity = some a) (hb : q.address? capacity = some b) :
    a ≤ b ↔ p ≤ q := by
  rw [UInt64.le_iff_toNat_le, ← address?_eq_some_iff.mp ha, ← address?_eq_some_iff.mp hb,
    number_le_iff hp hq]

/-- In front of a position that has an address, every position has one. -/
theorem exists_address?_of_le (hp : p.offset < capacity.toNat) (hq : q.offset < capacity.toNat)
    (hb : q.address? capacity = some b) (hle : p ≤ q) : ∃ a, p.address? capacity = some a := by
  have hnumber := (number_le_iff hp hq).mpr hle
  rw [address?_eq_some_iff.mp hb] at hnumber
  have hfits : p.segment.toNat * capacity.toNat + p.offset < UInt64.size :=
    Nat.lt_of_le_of_lt hnumber b.toNat_lt
  exact ⟨_, if_pos hfits⟩

/-- Addresses compare as positions do. -/
theorem address_lt_iff (hp : p.offset < capacity.toNat) (hq : q.offset < capacity.toNat)
    (ha : p.address? capacity = some a) (hb : q.address? capacity = some b) :
    a < b ↔ p < q := by
  rw [lt_iff_le_not_ge, ← address_le_iff hp hq ha hb, ← address_le_iff hq hp hb ha,
    UInt64.not_le]
  exact ⟨fun h => ⟨UInt64.le_of_lt h, h⟩, fun h => h.2⟩

/-- Every address names a position below the capacity. -/
theorem exists_ofAddress? (hcapacity : capacity ≠ 0) (address : UInt64) :
    ∃ position, ofAddress? address capacity = some position ∧
      position.offset < capacity.toNat ∧ position.address? capacity = some address := by
  have hsome : ofAddress? address capacity =
      some ⟨address / capacity, address.toNat % capacity.toNat⟩ := if_neg hcapacity
  exact ⟨_, hsome, Nat.mod_lt _ (capacity_pos hcapacity), address?_ofAddress? hsome⟩

end Position

namespace ValueLog

/-! ## What recovery compares -/

/-- An index admits an address of a key up to the one that it has itself. -/
def Admits (index : Index) (key : Bytes) (address : UInt64) : Prop :=
  ∃ indexed, index.find? key = some indexed ∧ address ≤ indexed

/-- The best record of a key so far is outdone by a later one that the index admits, and by no other. -/
theorem consider_cases (index : Index) (best : AddressMap) (key : Bytes) (address : UInt64) :
    (Admits index key address ∧ (∀ other, best[key]? = some other → other < address) ∧
        consider index best key address = best.insert key address) ∨
      (Admits index key address → ∃ other, best[key]? = some other ∧ address ≤ other) ∧
        consider index best key address = best := by
  unfold consider Admits
  rcases index.find? key with _ | indexed
  · exact .inr ⟨nofun, rfl⟩
  dsimp only
  by_cases hbeyond : indexed < address
  · refine .inr ⟨?_, if_pos hbeyond⟩
    rintro ⟨_, ⟨⟩, hle⟩
    exact absurd hbeyond (UInt64.not_lt.mpr hle)
  -- the index admits the record, so the best one so far decides
  rw [if_neg hbeyond]
  have hadmitted := UInt64.not_lt.mp hbeyond
  rcases best[key]? with _ | other
  · exact .inl ⟨⟨indexed, rfl, hadmitted⟩, nofun, rfl⟩
  by_cases hle : address ≤ other
  · exact .inr ⟨fun _ => ⟨other, rfl, hle⟩, if_pos (by simpa using hle)⟩
  · refine .inl ⟨⟨indexed, rfl, hadmitted⟩, ?_, if_neg (by simpa using hle)⟩
    rintro _ ⟨⟩
    exact UInt64.not_le.mp hle

/-- The best addresses among those of some records: of each key the greatest one that the index admits. -/
structure IsBest (index : Index) (seen : List (Bytes × UInt64)) (best : AddressMap) : Prop where
  mem {key : Bytes} {address : UInt64} : best[key]? = some address →
    (key, address) ∈ seen ∧ Admits index key address
  le {key : Bytes} {address : UInt64} : (key, address) ∈ seen → Admits index key address →
    ∃ greatest, best[key]? = some greatest ∧ address ≤ greatest

variable {index : Index} {seen : List (Bytes × UInt64)} {best : AddressMap}

theorem isBest_nil (index : Index) : IsBest index [] ∅ where
  mem h := by simp at h
  le h := by simp at h

/-- One more record, at whatever address. -/
theorem IsBest.consider (h : IsBest index seen best) (key : Bytes) (address : UInt64) :
    IsBest index (seen ++ [(key, address)]) (consider index best key address) := by
  rcases consider_cases index best key address with
    ⟨hadmits, hgreater, hinsert⟩ | ⟨hbetter, hsame⟩
  · -- the new record is the best one of its key, and other keys keep theirs
    rw [hinsert]
    refine ⟨fun {other found} hfound => ?_, fun {other found} hmem hother => ?_⟩ <;>
      by_cases hkey : key = other
    · subst hkey
      obtain rfl : address = found := by simpa using hfound
      exact ⟨by simp, hadmits⟩
    · rw [Std.ExtTreeMap.getElem?_insert, if_neg (by simpa using hkey)] at hfound
      exact ⟨List.mem_append_left _ (h.mem hfound).1, (h.mem hfound).2⟩
    · subst hkey
      refine ⟨address, by simp, ?_⟩
      rcases List.mem_append.mp hmem with hold | hnew
      · obtain ⟨greatest, hgreatest, hle⟩ := h.le hold hother
        exact UInt64.le_trans hle (UInt64.le_of_lt (hgreater greatest hgreatest))
      · rw [(Prod.mk.inj (List.mem_singleton.mp hnew)).2]
        exact UInt64.le_refl _
    · rw [Std.ExtTreeMap.getElem?_insert, if_neg (by simpa using hkey)]
      refine h.le ((List.mem_append.mp hmem).resolve_right fun hnew => hkey ?_) hother
      exact (Prod.mk.inj (List.mem_singleton.mp hnew)).1.symm
  · -- it is not admitted, or the best one so far is no earlier
    rw [hsame]
    refine ⟨fun hfound => ⟨List.mem_append_left _ (h.mem hfound).1, (h.mem hfound).2⟩,
      fun {other found} hmem hother => ?_⟩
    rcases List.mem_append.mp hmem with hold | hnew
    · exact h.le hold hother
    · obtain ⟨rfl, rfl⟩ := Prod.mk.inj (List.mem_singleton.mp hnew)
      exact hbetter hother

/-- Of each key the greatest address that the index admits is the best, in whatever order they came. -/
theorem IsBest.getElem?_eq_some_iff (h : IsBest index seen best) {key : Bytes} {address : UInt64} :
    best[key]? = some address ↔ (key, address) ∈ seen ∧ Admits index key address ∧
      ∀ other, (key, other) ∈ seen → Admits index key other → other ≤ address := by
  constructor
  · intro hbest
    refine ⟨(h.mem hbest).1, (h.mem hbest).2, fun other hother hadmits => ?_⟩
    obtain ⟨greatest, hgreatest, hle⟩ := h.le hother hadmits
    rwa [Option.some.inj (hbest.symm.trans hgreatest)]
  · rintro ⟨hmem, hadmits, hmax⟩
    obtain ⟨greatest, hgreatest, hle⟩ := h.le hmem hadmits
    obtain ⟨hmem', hadmits'⟩ := h.mem hgreatest
    rw [hgreatest, UInt64.le_antisymm (hmax greatest hmem' hadmits') hle]

/-! ## The records that recovery goes through -/

/-- The records that a scan of a segment finds, with their positions. -/
def recordsOf (log : ValueLog) (disk : Disk) (id : UInt64) : List (Position × Record) :=
  (Scan.ofContents log.capacity.toNat
    ((disk.read (log.segmentFile id)).toOption.getD .empty)).records.map
    fun found => (⟨id, found.1⟩, found.2)

variable {log : ValueLog} {drive drive' : Drive} {id : UInt64} {ids : List UInt64}

/-- Records that a scan finds start below the capacity. -/
theorem offset_lt_of_mem_recordsOf {disk : Disk} {found : Position × Record}
    (h : found ∈ log.recordsOf disk id) : found.1.offset < log.capacity.toNat := by
  obtain ⟨entry, hentry, rfl⟩ := List.mem_map.mp h
  exact (Scan.mem_records_fromOffset hentry).2.1

/-- The keys of these records with their addresses. -/
def addresses (capacity : UInt64) (records : List (Position × Record)) : List (Bytes × UInt64) :=
  records.filterMap fun found => (found.1.address? capacity).map fun address => (found.2.key, address)

/-- An address is that of one of the records. -/
theorem mem_addresses_iff {capacity : UInt64} {records : List (Position × Record)} {key : Bytes}
    {address : UInt64} :
    (key, address) ∈ addresses capacity records ↔ ∃ position record,
      (position, record) ∈ records ∧ record.key = key ∧ position.address? capacity = some address := by
  simp [addresses, and_left_comm, and_comm]

/-- Without a file the contents are none. -/
theorem eq_of_run_contentsOf? {path : Path} {contents : Option Contents}
    (h : (contentsOf? path).run.run drive = (.ok contents, drive')) :
    drive' = drive ∧ contents = (drive.disk.read path).toOption := by
  rw [contentsOf?, run_current_bind] at h
  rcases hread : drive.disk.read path with (_ | _) | found <;> rw [hread] at h <;> cases h
  · exact ⟨rfl, rfl⟩
  · exact ⟨rfl, rfl⟩

/-- A scan that goes well reads the segment, or finds that there is none. -/
theorem scan_of_scanSegment {scan : Scan}
    (h : (log.scanSegment id).run.run drive = (.ok scan, drive')) :
    drive' = drive ∧ scan.records.map (fun found => (⟨id, found.1⟩, found.2)) =
      log.recordsOf drive.disk id := by
  obtain ⟨contents, middle, hcontents, hscan⟩ := run_bind_ok h
  obtain ⟨rfl, rfl⟩ := eq_of_run_contentsOf? hcontents
  cases hscan
  exact ⟨rfl, rfl⟩

/-- Record after record. -/
theorem IsBest.foldlM {entries : List (Nat × Record)} {best' : AddressMap}
    (h : IsBest log.index seen best)
    (hrun : (entries.foldlM (fun best (offset, record) => do
        return ValueLog.consider log.index best record.key (← log.addressOf id offset))
      best : DiskM AddressMap).run.run drive = (.ok best', drive')) :
    drive' = drive ∧ IsBest log.index (seen ++ addresses log.capacity
      (entries.map fun found => (⟨id, found.1⟩, found.2))) best' := by
  induction entries generalizing seen best with
  | nil =>
    cases hrun
    exact ⟨rfl, by simpa [addresses] using h⟩
  | cons entry rest ih =>
    rw [List.foldlM_cons] at hrun
    obtain ⟨next, middle, hnext, hrest⟩ := run_bind_ok hrun
    obtain ⟨address, middle', haddress, hconsider⟩ := run_bind_ok hnext
    cases hconsider
    -- a record without an address would have ended the scan
    have hsome : (Position.mk id entry.1).address? log.capacity = some address ∧ middle = drive := by
      unfold addressOf at haddress
      split at haddress <;> cases haddress
      exact ⟨‹_›, rfl⟩
    obtain ⟨hsome, rfl⟩ := hsome
    obtain ⟨rfl, hbest⟩ := ih (h.consider entry.2.key address) hrest
    refine ⟨rfl, ?_⟩
    have hentry : addresses log.capacity ((entry :: rest).map fun found => (⟨id, found.1⟩, found.2)) =
        (entry.2.key, address) ::
          addresses log.capacity (rest.map fun found => (⟨id, found.1⟩, found.2)) := by
      simp [addresses, hsome]
    rw [hentry]
    simpa using hbest

/-- Two rows of records have their addresses one behind the other. -/
theorem addresses_append (capacity : UInt64) (records more : List (Position × Record)) :
    addresses capacity (records ++ more) = addresses capacity records ++ addresses capacity more :=
  List.filterMap_append

/-- Segment after segment. -/
theorem IsBest.survivors {best' : AddressMap} (h : IsBest log.index seen best)
    (hrun : (ids.foldlM log.considerSegment best : DiskM AddressMap).run.run drive =
      (.ok best', drive')) :
    IsBest log.index (seen ++ addresses log.capacity (ids.flatMap (log.recordsOf drive.disk)))
      best' := by
  induction ids generalizing seen best with
  | nil =>
    cases hrun
    simpa [addresses] using h
  | cons id rest ih =>
    rw [List.foldlM_cons] at hrun
    obtain ⟨next, middle, hnext, hrest⟩ := run_bind_ok hrun
    obtain ⟨scan, middle', hscan, hrecords⟩ := run_bind_ok hnext
    obtain ⟨rfl, hrecordsOf⟩ := scan_of_scanSegment hscan
    obtain ⟨rfl, hbest⟩ := h.foldlM hrecords
    rw [hrecordsOf] at hbest
    rw [List.flatMap_cons, addresses_append, ← List.append_assoc]
    exact ih hbest hrest

/-- A record of the key lies at that position of these segments. -/
def Holds (log : ValueLog) (disk : Disk) (ids : List UInt64) (key : Bytes) (position : Position) :
    Prop :=
  ∃ record, (position, record) ∈ ids.flatMap (log.recordsOf disk) ∧ record.key = key

/-- Positions that hold a record of a key are below the capacity. -/
theorem Holds.offset_lt {disk : Disk} {key : Bytes} {position : Position}
    (h : log.Holds disk ids key position) : position.offset < log.capacity.toNat := by
  obtain ⟨record, hmem, -⟩ := h
  obtain ⟨id, -, hrecord⟩ := List.mem_flatMap.mp hmem
  exact offset_lt_of_mem_recordsOf hrecord

/-- An address is found in the segments if a position with it holds a record of the key. -/
theorem mem_addresses_recordsOf_iff {disk : Disk} {key : Bytes} {address : UInt64} :
    (key, address) ∈ addresses log.capacity (ids.flatMap (log.recordsOf disk)) ↔
      ∃ position, log.Holds disk ids key position ∧
        position.address? log.capacity = some address := by
  rw [mem_addresses_iff]
  constructor
  · rintro ⟨position, record, hrecord, hkey, haddress⟩
    exact ⟨position, ⟨record, hrecord, hkey⟩, haddress⟩
  · rintro ⟨position, ⟨record, hrecord, hkey⟩, haddress⟩
    exact ⟨position, record, hrecord, hkey, haddress⟩

/-- There lies the last record of the key that was written no later than the indexed one. -/
structure Survives (log : ValueLog) (disk : Disk) (ids : List UInt64) (key : Bytes)
    (position : Position) : Prop where
  holds : log.Holds disk ids key position
  exists_bound : ∃ indexed bound, log.find? key = some indexed ∧
    Position.ofAddress? indexed log.capacity = some bound ∧ position ≤ bound ∧
    ∀ other, log.Holds disk ids key other → other ≤ bound → other ≤ position

/-- Recovery compares addresses, and so keeps of each key the record that was written last, up to the
one that the index has. -/
theorem survivors_eq_some_iff (hcapacity : log.capacity ≠ 0)
    (hrun : (log.survivors ids).run.run drive = (.ok best, drive')) (key : Bytes)
    (address : UInt64) :
    best[key]? = some address ↔ ∃ position, position.address? log.capacity = some address ∧
      log.Survives drive.disk ids key position := by
  rw [((isBest_nil log.index).survivors hrun).getElem?_eq_some_iff, List.nil_append]
  have hmem (address : UInt64) := @mem_addresses_recordsOf_iff log ids drive.disk key address
  constructor
  · rintro ⟨hfound, ⟨indexed, hindexed, hle⟩, hmax⟩
    obtain ⟨position, hholds, haddress⟩ := (hmem address).mp hfound
    obtain ⟨bound, hbound, hbelow, hnamed⟩ := Position.exists_ofAddress? hcapacity indexed
    have hoffset := hholds.offset_lt
    refine ⟨position, haddress, hholds, indexed, bound, hindexed, hbound,
      (Position.address_le_iff hoffset hbelow haddress hnamed).mp hle, fun other hother hfront => ?_⟩
    -- in front of the indexed position everything has an address, so recovery considered it
    obtain ⟨address', haddress'⟩ :=
      Position.exists_address?_of_le hother.offset_lt hbelow hnamed hfront
    have hadmitted := (Position.address_le_iff hother.offset_lt hbelow haddress' hnamed).mpr hfront
    exact (Position.address_le_iff hother.offset_lt hoffset haddress' haddress).mp
      (hmax address' ((hmem address').mpr ⟨other, hother, haddress'⟩) ⟨indexed, hindexed, hadmitted⟩)
  · rintro ⟨position, haddress, hholds, indexed, bound, hindexed, hbound, hle, hmax⟩
    obtain ⟨bound', hbound', hbelow, hnamed⟩ := Position.exists_ofAddress? hcapacity indexed
    obtain rfl := Option.some.inj (hbound.symm.trans hbound')
    have hoffset := hholds.offset_lt
    refine ⟨(hmem address).mpr ⟨position, hholds, haddress⟩, ⟨indexed, hindexed,
      (Position.address_le_iff hoffset hbelow haddress hnamed).mpr hle⟩, ?_⟩
    rintro address' hfound ⟨indexed', hindexed', hle'⟩
    obtain rfl := Option.some.inj (hindexed.symm.trans hindexed')
    obtain ⟨other, hother, haddress'⟩ := (hmem address').mp hfound
    have hfront := (Position.address_le_iff hother.offset_lt hbelow haddress' hnamed).mp hle'
    exact (Position.address_le_iff hother.offset_lt hoffset haddress' haddress).mpr
      (hmax other hother hfront)

/-! ## Writes one after the other -/

/-- The position behind the last record. -/
def tip (log : ValueLog) : Position :=
  ⟨log.active.id, log.active.length⟩

/-- The log has come from one state to another: forward, and with the next segment id behind the one in
use. -/
structure Advances (log log' : ValueLog) : Prop where
  capacity_eq : log'.capacity = log.capacity
  next_eq : log'.range.next.toNat = log'.active.id.toNat + 1
  tip_le : log.tip ≤ log'.tip

/-- A record's place, between two states of the log. -/
structure Takes (log : ValueLog) (key : Bytes) (address : UInt64) (log' : ValueLog) : Prop where
  staged : log'.index.staged[key]? = some address
  exists_position : ∃ position : Position, position.address? log.capacity = some address ∧
    position.offset < log.capacity.toNat ∧ log.tip ≤ position ∧ position < log'.tip

variable {log' sealed last : ValueLog}

/-- A log that advances twice advances. -/
theorem Advances.trans (h : Advances log log') (h' : Advances log' last) : Advances log last where
  capacity_eq := h'.capacity_eq.trans h.capacity_eq
  next_eq := h'.next_eq
  tip_le := le_trans h.tip_le h'.tip_le

/-- Room for a record is made at the tip or at the start of the next segment, and below the capacity. -/
theorem ends_makeRoom_tip (hnext : log.range.next.toNat = log.active.id.toNat + 1)
    (hcapacity : log.capacity ≠ 0) (record : Record) :
    Ends (log.makeRoom record.length)
      (fun sealed => Advances log sealed ∧ sealed.tip.offset < log.capacity.toNat)
      (fun _ => True) := by
  have hpos := Position.capacity_pos hcapacity
  unfold makeRoom
  split
  · refine (ends_lift _).bind fun _ _ => ?_
    split
    · rename_i range hgrow
      refine (ends_replaceFile (fun _ => trivial) _ _ _).bind fun _ _ =>
        (ends_create (fun _ => trivial) _).bind fun _ _ => ends_pure ⟨⟨rfl, ?_, ?_⟩, hpos⟩
      · exact (SegmentRange.of_grow? hgrow).2
      · -- the next segment has a greater id, whatever the offset
        refine Position.le_iff.mpr (.inl ?_)
        rw [UInt64.lt_iff_toNat_lt]
        exact Nat.lt_of_lt_of_eq (Nat.lt_succ_self _) hnext.symm
    · exact ends_throw trivial
  · rename_i hroom
    simp only [isFull, decide_eq_true_eq, not_and, Nat.not_lt] at hroom
    have hlength := record.length_pos
    refine ends_pure ⟨⟨rfl, hnext, le_refl _⟩, ?_⟩
    show log.active.length < log.capacity.toNat
    omega

/-- A record takes the place at the tip. -/
theorem ends_append_tip (hnext : log.range.next.toNat = log.active.id.toNat + 1)
    (hroom : log.tip.offset < log.capacity.toNat) (record : Record) :
    Ends (log.append record)
      (fun log' => Advances log log' ∧ ∃ address, Takes log record.key address log')
      (fun _ => True) := by
  unfold append
  dsimp only
  split
  · rename_i address haddress
    have hput : Ends (liftM (log.index.put record.key address) : DiskM Index)
        (fun index => index.staged[record.key]? = some address) (fun _ => True) :=
      ends_lift_of fun _ => Std.ExtTreeMap.getElem?_insert_self
    refine (ends_lift _).bind fun _ _ => hput.bind fun index hstaged => ends_pure ?_
    have hlt : log.tip < (⟨log.active.id, log.active.length + record.length⟩ : Position) :=
      Position.lt_iff.mpr (.inr ⟨rfl, Nat.lt_add_of_pos_right record.length_pos⟩)
    exact ⟨⟨rfl, hnext, le_of_lt hlt⟩, address, hstaged, log.tip, haddress, hroom, le_refl _, hlt⟩
  · exact ends_throw trivial

/-- A write, whatever the disk: the log goes forward, and if all goes well the record lies in between. -/
theorem advances_put (hnext : log.range.next.toNat = log.active.id.toNat + 1)
    (hcapacity : log.capacity ≠ 0) (key value : Bytes) (drive : Drive) :
    let result := ((log.put key value).run drive).1
    Advances log result.1 ∧ (result.2 = .ok () → ∃ address, Takes log key address result.1) := by
  have hmade := ends_makeRoom_tip hnext hcapacity ⟨key, value⟩ drive
  show Advances log (log.put key value drive).1.1 ∧ ((log.put key value drive).1.2 = .ok () →
    ∃ address, Takes log key address (log.put key value drive).1.1)
  unfold put
  dsimp only
  rcases hrun : (log.makeRoom (Record.length ⟨key, value⟩)).run.run drive with
    ⟨fault | sealed, middle⟩ <;> rw [hrun] at hmade
  · exact ⟨⟨rfl, hnext, le_refl _⟩, nofun⟩
  obtain ⟨hsealed, hroom⟩ := hmade
  have happended := ends_append_tip hsealed.next_eq (hsealed.capacity_eq ▸ hroom) ⟨key, value⟩ middle
  dsimp only
  rcases hrun : (sealed.append ⟨key, value⟩).run.run middle with ⟨fault | log', last⟩ <;>
    rw [hrun] at happended
  · -- the record is not there, but the segment that was made for it is
    exact ⟨hsealed, nofun⟩
  obtain ⟨happend, address, hstaged, position, haddress, hoffset, htip, hbehind⟩ := happended
  rw [hsealed.capacity_eq] at haddress hoffset
  exact ⟨hsealed.trans happend, fun _ =>
    ⟨address, hstaged, position, haddress, hoffset, le_trans hsealed.tip_le htip, hbehind⟩⟩

/-- Writes and barriers on an open log, whatever becomes of the disk meanwhile. The entries are the keys of
the writes that went well, each with the address that it staged. -/
inductive Writes (log : ValueLog) : List (Bytes × UInt64) → ValueLog → Prop
  | start : Writes log [] log
  /-- A write that goes well. -/
  | stored {entries : List (Bytes × UInt64)} {middle last : ValueLog} {key value : Bytes}
      {address : UInt64} {drive : Drive} (before : Writes log entries middle)
      (hput : ((middle.put key value).run drive).1 = (last, .ok ()))
      (hstaged : last.index.staged[key]? = some address) :
      Writes log (entries ++ [(key, address)]) last
  /-- A write that fails. -/
  | failed {entries : List (Bytes × UInt64)} {middle last : ValueLog} {key value : Bytes}
      {fault : Fault} {drive : Drive} (before : Writes log entries middle)
      (hput : ((middle.put key value).run drive).1 = (last, .error fault)) : Writes log entries last
  /-- The first half of a barrier. -/
  | begun {entries : List (Bytes × UInt64)} {middle : ValueLog} (before : Writes log entries middle) :
      Writes log entries middle.beginSync.2
  /-- The second half of a barrier. -/
  | committed {entries : List (Bytes × UInt64)} {middle : ValueLog} (batch : AddressMap)
      (drive : Drive) (before : Writes log entries middle) :
      Writes log entries ((middle.commitSync batch).run drive).1

/-- What writes come to: their addresses ascend, and lie between where the log stood and where it
stands. -/
structure Written (log : ValueLog) (entries : List (Bytes × UInt64)) (last : ValueLog) : Prop
    extends Advances log last where
  ascending : entries.Pairwise fun a b => a.2 < b.2
  between {entry : Bytes × UInt64} : entry ∈ entries →
    ∃ position : Position, position.address? log.capacity = some entry.2 ∧
      position.offset < log.capacity.toNat ∧ log.tip ≤ position ∧ position < last.tip

/-- What was written stays so when the log advances. -/
theorem Written.advance {entries : List (Bytes × UInt64)} (h : Written log entries log')
    (hadvance : Advances log' last) : Written log entries last where
  toAdvances := h.toAdvances.trans hadvance
  ascending := h.ascending
  between hentry := by
    obtain ⟨position, haddress, hoffset, hfirst, hfront⟩ := h.between hentry
    exact ⟨position, haddress, hoffset, hfirst, lt_of_lt_of_le hfront hadvance.tip_le⟩

/-- A record that is written next has an address behind all others. -/
theorem Written.take {entries : List (Bytes × UInt64)} (h : Written log entries log')
    (hadvance : Advances log' last) {key : Bytes} {address : UInt64}
    (htakes : Takes log' key address last) : Written log (entries ++ [(key, address)]) last := by
  -- the others lie in front of where the log stood, and this one does not
  obtain ⟨position, haddress, hoffset, htip, hbehind⟩ := htakes.exists_position
  rw [h.capacity_eq] at haddress hoffset
  refine ⟨h.toAdvances.trans hadvance, List.pairwise_append.mpr ⟨h.ascending, by simp, ?_⟩, ?_⟩
  · rintro entry hentry _ (_ | ⟨_, ⟨⟩⟩)
    obtain ⟨other, haddress', hoffset', -, hfront⟩ := h.between hentry
    exact (Position.address_lt_iff hoffset' hoffset haddress' haddress).mpr
      (lt_of_lt_of_le hfront htip)
  · intro entry hentry
    rcases List.mem_append.mp hentry with hold | hnew
    · exact (h.advance hadvance).between hold
    · rw [List.mem_singleton.mp hnew]
      exact ⟨position, haddress, hoffset, le_trans h.tip_le htip, hbehind⟩

/-- What any writes and barriers lead to was written in this order. -/
theorem Writes.written {entries : List (Bytes × UInt64)} (h : Writes log entries last)
    (hnext : log.range.next.toNat = log.active.id.toNat + 1) (hcapacity : log.capacity ≠ 0) :
    Written log entries last := by
  -- on the history, last event first: a write may fail, but it never takes the log back
  induction h with
  | start => exact ⟨⟨rfl, hnext, le_refl _⟩, .nil, by simp⟩
  | @stored entries middle last key value address drive before hput hstaged ih =>
    obtain ⟨hadvance, htakes⟩ := advances_put ih.next_eq (ih.capacity_eq ▸ hcapacity) key value drive
    rw [hput] at hadvance htakes
    obtain ⟨address', hstaged', hplace⟩ := htakes rfl
    obtain rfl := Option.some.inj (hstaged.symm.trans hstaged')
    exact ih.take hadvance ⟨hstaged, hplace⟩
  | @failed entries middle last key value fault drive before hput ih =>
    have hadvance := (advances_put ih.next_eq (ih.capacity_eq ▸ hcapacity) key value drive).1
    rw [hput] at hadvance
    exact ih.advance hadvance
  | begun before ih => exact ih.advance ⟨rfl, ih.next_eq, le_refl _⟩
  | committed batch drive before ih => exact ih.advance ⟨rfl, ih.next_eq, le_refl _⟩

/-- Of two writes the earlier one has the smaller address. -/
theorem Written.address_le_iff {entries : List (Bytes × UInt64)} (h : Written log entries last)
    {i j : Nat} (hi : i < entries.length) (hj : j < entries.length) :
    entries[i].2 ≤ entries[j].2 ↔ i ≤ j := by
  have hlt := List.pairwise_iff_getElem.mp h.ascending
  constructor
  · intro hle
    by_contra hgt
    exact absurd hle (UInt64.not_le.mpr (hlt j i hj hi (Nat.lt_of_not_le hgt)))
  · intro hle
    rcases Nat.lt_or_eq_of_le hle with hless | rfl
    · exact UInt64.le_of_lt (hlt i j hi hj hless)
    · exact UInt64.le_refl _

/-! ## An opened log -/

/-- Every operation ends somehow. -/
theorem ends_any {α : Type} (operation : DiskM α) : Ends operation (fun _ => True) fun _ => True := by
  intro drive
  split <;> trivial

/-- A record that is stored advances the log. -/
theorem ends_store_advances (hnext : log.range.next.toNat = log.active.id.toNat + 1)
    (hcapacity : log.capacity ≠ 0) (record : Record) :
    Ends (log.store record) (Advances log) (fun _ => True) := by
  refine (ends_makeRoom_tip hnext hcapacity record).bind fun sealed ⟨hsealed, hroom⟩ => ?_
  exact (ends_append_tip hsealed.next_eq (hsealed.capacity_eq ▸ hroom) record).imp
    (fun _ happended => hsealed.trans happended.1) fun _ h => h

/-- Relocation writes like everybody else. -/
theorem ends_relocate_advances (hnext : log.range.next.toNat = log.active.id.toNat + 1)
    (hcapacity : log.capacity ≠ 0) (best : AddressMap) (ids : List UInt64) :
    Ends (log.relocate best ids) (fun state => Advances log state.1) (fun _ => True) := by
  refine ends_foldlM ⟨rfl, hnext, le_refl _⟩ fun id _ state hstate => ?_
  refine (ends_any _).bind fun scan _ => (?_ : Ends _ (fun state => Advances log state.1) _).bind
    fun state hstate => ends_pure hstate
  refine ends_foldlM hstate fun found _ state hstate => ?_
  unfold relocateRecord
  refine (ends_any _).bind fun address _ => ?_
  split
  · exact (ends_store_advances hstate.next_eq (hstate.capacity_eq ▸ hcapacity) _).bind
      fun log' hlog' => ends_pure (hstate.trans hlog')
  · exact ends_pure hstate

/-- Recovery comes to stand in a segment behind the old ones, and so does the range. -/
theorem ends_recover_advances (hnext : log.range.next.toNat = log.active.id.toNat + 1)
    (hcapacity : log.capacity ≠ 0) {old : SegmentRange} (hid : log.active.id = old.next) :
    Ends (log.recover old)
      (fun opened => opened.1.capacity = log.capacity ∧
        opened.1.range.next.toNat = opened.1.active.id.toNat + 1 ∧
        opened.1.range.first ≤ opened.1.active.id)
      (fun _ => True) := by
  unfold recover
  refine (ends_any _).bind fun best _ => ?_
  refine (ends_relocate_advances hnext hcapacity best old.ids).bind fun ⟨moved, report⟩ hmoved => ?_
  refine (?_ : Ends _ (Advances log) _).bind fun synced hsynced => ?_
  · refine ends_lift_of fun _ => ?_
    exact ⟨hmoved.capacity_eq, hmoved.next_eq, hmoved.tip_le⟩
  refine (ends_any _).bind fun _ _ => (ends_any _).bind fun _ _ => ends_pure ?_
  refine ⟨hsynced.capacity_eq, hsynced.next_eq, ?_⟩
  show old.next ≤ synced.active.id
  rcases Position.le_iff.mp hsynced.tip_le with hlt | ⟨heq, -⟩
  · exact hid ▸ UInt64.le_of_lt hlt
  · exact hid ▸ UInt64.le_of_eq heq

/-- An opened log has its next segment id behind the one in use, and its first one not behind that. -/
theorem ends_openWith_advances (config : Config) (index : Index) :
    Ends (openWith config index)
      (fun opened => (opened.1.capacity = config.capacity ∧ config.capacity ≠ 0) ∧
        opened.1.range.next.toNat = opened.1.active.id.toNat + 1 ∧
        opened.1.range.first ≤ opened.1.active.id)
      (fun _ => True) := by
  rw [openWith_eq]
  cases hvalid : config.validate with
  | error cause => exact ends_throw trivial
  | ok =>
    have hcapacity := capacity_ne_of_validate hvalid
    refine (ends_any _).bind fun _ _ => (ends_any _).bind fun old _ => (ends_any _).bind fun _ _ => ?_
    unfold openFresh
    split
    · rename_i range hgrow
      refine (ends_any _).bind fun _ _ => (ends_any _).bind fun file _ => ?_
      exact (ends_recover_advances (SegmentRange.of_grow? hgrow).2 hcapacity rfl).imp
        (fun _ hopened => ⟨⟨hopened.1, hcapacity⟩, hopened.2⟩) fun _ h => h
    · exact ends_throw trivial

/-! ## What addresses say -/

/-- Addresses of a capacity say when records were written. -/
structure OrdersWrites (capacity : UInt64) : Prop where
  /-- A position below the capacity can be told from its address. -/
  ofAddress?_eq {position : Position} {address : UInt64} : position.offset < capacity.toNat →
    position.address? capacity = some address →
    Position.ofAddress? address capacity = some position
  /-- Addresses are in the order of segments, and of offsets in a segment. -/
  le_iff {p q : Position} {a b : UInt64} : p.offset < capacity.toNat → q.offset < capacity.toNat →
    p.address? capacity = some a → q.address? capacity = some b →
    (a ≤ b ↔ p.segment < q.segment ∨ p.segment = q.segment ∧ p.offset ≤ q.offset)
  /-- Every address is that of a position below the capacity. -/
  exists_position (address : UInt64) : ∃ position,
    Position.ofAddress? address capacity = some position ∧ position.offset < capacity.toNat ∧
      position.address? capacity = some address
  /-- What recovery keeps of a key is the record at the last position up to the indexed one. -/
  survivors_iff {log : ValueLog} {ids : List UInt64} {best : AddressMap} {drive drive' : Drive} :
    log.capacity = capacity → (log.survivors ids).run.run drive = (.ok best, drive') →
    ∀ key address, best[key]? = some address ↔ ∃ position : Position,
      position.address? capacity = some address ∧ log.Survives drive.disk ids key position
  /-- Of any two writes on an opened log the earlier one has the smaller address. -/
  writes_iff {config : Config} {index : Index} {drive : Drive} {log last : ValueLog}
    {report : Recovery} {entries : List (Bytes × UInt64)} : config.capacity = capacity →
    ((openWith config index).run.run drive).1 = .ok (log, report) → log.Writes entries last →
    ∀ (i j : Nat) (hi : i < entries.length) (hj : j < entries.length),
      entries[i].2 ≤ entries[j].2 ↔ i ≤ j
  /-- What lies in the segments in front of an opened log's has smaller addresses than any write. -/
  writes_behind {config : Config} {index : Index} {drive : Drive} {log last : ValueLog}
    {report : Recovery} {entries : List (Bytes × UInt64)} : config.capacity = capacity →
    ((openWith config index).run.run drive).1 = .ok (log, report) → log.Writes entries last →
    ∀ (old : Position) (address : UInt64), old.segment < log.range.first →
      old.offset < capacity.toNat → old.address? capacity = some address →
      ∀ entry ∈ entries, address < entry.2

/-- With any capacity but zero, the order of addresses, that of positions and that of writing are one. -/
theorem ordersWrites {capacity : UInt64} (hcapacity : capacity ≠ 0) : OrdersWrites capacity where
  ofAddress?_eq := Position.ofAddress?_address?
  le_iff hp hq ha hb := (Position.address_le_iff hp hq ha hb).trans Position.le_iff
  exists_position := Position.exists_ofAddress? hcapacity
  survivors_iff := by
    rintro log ids best drive drive' rfl hrun key address
    exact survivors_eq_some_iff hcapacity hrun key address
  writes_iff {config index drive log last report entries} hsame hopen hwrites i j hi hj := by
    have hopened := ends_openWith_advances config index drive
    rw [hopen] at hopened
    exact (hwrites.written hopened.2.1 (hopened.1.1 ▸ hopened.1.2)).address_le_iff hi hj
  writes_behind {config index drive log last report entries} hsame hopen hwrites old address hold
      hoffset haddress entry hentry := by
    have hopened := ends_openWith_advances config index drive
    rw [hopen] at hopened
    obtain ⟨⟨hlog, hnonzero⟩, hnext, hfirst⟩ := hopened
    rw [hsame] at hlog
    have hwritten := hwrites.written hnext (hlog ▸ hcapacity)
    obtain ⟨position, hposition, hbelow, htip, -⟩ := hwritten.between hentry
    rw [hlog] at hposition hbelow
    -- the old segments end where the log begins, and it has only gone forward since
    have hbefore : old < log.tip :=
      Position.lt_iff.mpr (.inl (UInt64.lt_of_lt_of_le hold hfirst))
    exact (Position.address_lt_iff hoffset hbelow haddress hposition).mpr (lt_of_lt_of_le hbefore htip)

/-- Two records, of which the second one does not fit behind the first. -/
theorem ordersWrites_rolledOver :
    let config := Config.withDirectory { Config.default with capacity := 20 } (.ofString "d")
    let index : Index := ⟨.ofString "index.log", 0, ∅, ∅⟩
    ∃ log report last, ((openWith config index).run.run (ofDisk Disk.empty)).1 = .ok (log, report) ∧
      log.Writes [([1], 0), ([3], 20)] last ∧ ((0 : UInt64) ≤ 20 ↔ 0 ≤ 1) ∧
      Position.ofAddress? 39 20 = some ⟨1, 19⟩ ∧
      ((39 : UInt64) ≤ 40 ↔ (1 : UInt64) < 2 ∨ (1 : UInt64) = 2 ∧ 19 ≤ 0) := by
  intro config index
  have hrun : (match (openWith config index).run.run (ofDisk Disk.empty) with
      | (.error _, _) => false
      | (.ok (log, _), drive) =>
        let one := (log.put [1] [2]).run drive
        let two := (one.1.1.put [3] [4]).run one.2
        one.1.2.isOk && one.1.1.index.staged[([1] : Bytes)]? == some 0 &&
          two.1.2.isOk && two.1.1.index.staged[([3] : Bytes)]? == some 20) = true := by
    decide +kernel
  rcases hopen : (openWith config index).run.run (ofDisk Disk.empty) with ⟨_ | ⟨log, report⟩, drive⟩ <;>
    rw [hopen] at hrun
  · cases hrun
  have hok : ∀ outcome : Except Fault Unit, outcome.isOk = true → outcome = .ok () := by
    rintro (_ | _) h
    · cases h
    · rfl
  simp only [Bool.and_eq_true, beq_iff_eq] at hrun
  obtain ⟨⟨⟨hone, hstaged⟩, htwo⟩, hstaged'⟩ := hrun
  -- both writes have gone well, at these addresses
  have hwrites : log.Writes [([1], 0), ([3], 20)] _ :=
    (Writes.start.stored (Prod.ext rfl (hok _ hone)) hstaged).stored (Prod.ext rfl (hok _ htwo))
      hstaged'
  have horders : OrdersWrites 20 := ordersWrites (by decide)
  have hsmaller : ((⟨1, 19⟩ : Position).offset < (20 : UInt64).toNat) ∧
      (⟨2, 0⟩ : Position).offset < (20 : UInt64).toNat := by
    decide
  have hcapacity : config.capacity = 20 := rfl
  refine ⟨log, report, _, rfl, hwrites, ?_, horders.ofAddress?_eq hsmaller.1 rfl,
    horders.le_iff hsmaller.1 hsmaller.2 rfl rfl⟩
  exact horders.writes_iff hcapacity (congrArg Prod.fst hopen) hwrites 0 1 (by decide) (by decide)

end ValueLog

end BarrierStore
