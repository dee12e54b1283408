import BarrierStore.Proofs.Cut
import BarrierStore.Proofs.Segment.Record
import BarrierStore.Segment.Scan

/-!
# What a scan finds

A scan depends on the bytes of a segment only, and over records that were appended one behind the
other it finds exactly them; where the last of them was cut short, it finds the others.

The module introduces:

* `Scan.recordsIn` — the records of a segment of these bytes, with their offsets;
* `Record.encodeAll`, `Record.placed` — records one behind the other, and their offsets;
* `Scan.Whole` — the bytes are such records, each starting below the capacity.

Main statements: `Whole.append`, `Whole.append_cut` and `recordsIn_take` on appending and cutting,
`mem_records_fromOffset` and `pairwise_records_fromOffset` on any bytes.
-/

namespace BarrierStore

namespace Record

/-- The bytes of these records, one behind the other. -/
def encodeAll (records : List Record) : Bytes :=
  records.flatMap encode

/-- The records with their offsets, the first of them at `offset`. -/
def placed : (offset : Nat) → (records : List Record) → List (Nat × Record)
  | _, [] => []
  | offset, record :: rest => (offset, record) :: placed (offset + record.length) rest

@[simp]
theorem encodeAll_nil : encodeAll [] = [] := rfl

@[simp]
theorem encodeAll_cons (record : Record) (rest : List Record) :
    encodeAll (record :: rest) = record.encode ++ encodeAll rest := rfl

/-- Records are written one behind the other. -/
@[simp]
theorem encodeAll_append (records more : List Record) :
    encodeAll (records ++ more) = encodeAll records ++ encodeAll more :=
  List.flatMap_append

/-- They are placed one behind the other, too. -/
theorem placed_append (offset : Nat) (records more : List Record) :
    placed offset (records ++ more) =
      placed offset records ++ placed (offset + (encodeAll records).length) more := by
  induction records generalizing offset with
  | nil => simp [placed]
  | cons record rest ih => simp [placed, ih, Nat.add_assoc]

/-- As many records are placed as there are. -/
@[simp]
theorem length_placed (offset : Nat) (records : List Record) :
    (placed offset records).length = records.length := by
  induction records generalizing offset with
  | nil => rfl
  | cons record rest ih => rw [placed, List.length_cons, ih, List.length_cons]

/-- They are the records that they were. -/
@[simp]
theorem placed_records (offset : Nat) (records : List Record) :
    (placed offset records).map Prod.snd = records := by
  induction records generalizing offset with
  | nil => rfl
  | cons record rest ih => rw [placed, List.map_cons, ih]

theorem placed_take (offset : Nat) (records : List Record) (count : Nat) :
    placed offset (records.take count) = (placed offset records).take count := by
  induction records generalizing offset count with
  | nil => rw [placed, List.take_nil, List.take_nil, placed]
  | cons record rest ih =>
    cases count with
    | zero => rfl
    | succ count => rw [List.take_succ_cons, placed, placed, List.take_succ_cons, ih]

/-- A record has its offset behind the records in front of it. -/
theorem mem_placed_iff {start offset : Nat} {record : Record} {records : List Record} :
    (offset, record) ∈ placed start records ↔ ∃ front rest, records = front ++ record :: rest ∧
      offset = start + (encodeAll front).length := by
  constructor
  · intro hmem
    induction records generalizing start with
    | nil => cases hmem
    | cons first rest ih =>
      rcases List.mem_cons.mp hmem with hfirst | hmem
      · obtain ⟨rfl, rfl⟩ := Prod.mk.inj hfirst
        exact ⟨[], rest, rfl, rfl⟩
      · obtain ⟨front, back, rfl, rfl⟩ := ih hmem
        exact ⟨first :: front, back, rfl, by simp [Nat.add_assoc]⟩
  · intro hsplit
    obtain ⟨front, rest, rfl, rfl⟩ := hsplit
    rw [placed_append, placed]
    exact List.mem_append_right _ List.mem_cons_self

end Record

namespace Scan

/-- The records of a segment of these bytes, with their offsets. -/
def recordsIn (capacity : Nat) (bytes : Bytes) : List (Nat × Record) :=
  (ofContents capacity (.ofBytes bytes)).records

/-- A scan depends on the bytes only. -/
theorem fromOffset_ofBytes (capacity : Nat) (contents : Contents) (offset : Nat) :
    fromOffset capacity contents offset =
      fromOffset capacity (.ofBytes contents.toBytes) offset := by
  have hlength : (Contents.ofBytes contents.toBytes).length = contents.length := by
    rw [← Contents.length_toBytes, Contents.toBytes_ofBytes, Contents.length_toBytes]
  have hrecord : ∀ offset, (Contents.ofBytes contents.toBytes).recordAt? offset =
      contents.recordAt? offset := by
    intro offset
    rw [Contents.recordAt?_eq, Contents.recordAt?_eq, Contents.toBytes_ofBytes]
  -- the two scans look at the same records, offset by offset
  fun_induction fromOffset capacity contents offset with
  | case1 offset h =>
    rw [fromOffset, hlength, if_pos h]
  | case2 offset h hnone =>
    rw [fromOffset, hlength, if_neg h, hrecord, hnone]
  | case3 offset h record hsome tail ih =>
    rw [fromOffset, hlength, if_neg h, hrecord, hsome]
    dsimp only
    rw [← ih]

/-- The records from `offset` on, read off the bytes. -/
theorem records_fromOffset (capacity : Nat) (bytes : Bytes) (offset : Nat) :
    (fromOffset capacity (.ofBytes bytes) offset).records =
      if bytes.length ≤ offset ∨ capacity ≤ offset then []
      else match Record.parse? (bytes.drop offset) with
        | none => []
        | some (record, _) =>
          (offset, record) ::
            (fromOffset capacity (.ofBytes bytes) (offset + record.length)).records := by
  have hlength : (Contents.ofBytes bytes).length = bytes.length := by
    rw [← Contents.length_toBytes, Contents.toBytes_ofBytes]
  rw [fromOffset, hlength]
  split
  · rfl
  · rw [Contents.recordAt?_eq, Contents.toBytes_ofBytes]
    cases Record.parse? (bytes.drop offset) <;> rfl

/-- What a scan finds starts below the capacity, is a record of the file, and lies in it as a whole. -/
theorem mem_records_fromOffset {capacity : Nat} {contents : Contents} {start offset : Nat}
    {record : Record} (h : (offset, record) ∈ (fromOffset capacity contents start).records) :
    start ≤ offset ∧ offset < capacity ∧ contents.recordAt? offset = some record := by
  fun_induction fromOffset capacity contents start with
  | case1 => simp at h
  | case2 => simp at h
  | case3 start hinside found hfound tail ih =>
    simp only [not_or, Nat.not_le] at hinside
    rcases List.mem_cons.mp h with heq | hrest
    · cases heq
      exact ⟨Nat.le_refl _, hinside.2, hfound⟩
    · obtain ⟨hafter, hrecord⟩ := ih hrest
      exact ⟨by omega, hrecord⟩

/-- Records are found in the order of their offsets. -/
theorem pairwise_records_fromOffset (capacity : Nat) (contents : Contents) (start : Nat) :
    (fromOffset capacity contents start).records.Pairwise fun a b => a.1 < b.1 := by
  fun_induction fromOffset capacity contents start with
  | case1 => exact .nil
  | case2 => exact .nil
  | case3 start hinside found hfound tail ih =>
    refine List.pairwise_cons.mpr ⟨fun later hlater => ?_, ih⟩
    have := (@mem_records_fromOffset _ _ _ _ later.2 hlater).1
    have := found.length_pos
    dsimp only
    omega

/-- A record that is found is one of lengths that are written. -/
theorem small_of_recordAt? {contents : Contents} {offset : Nat} {record : Record}
    (h : contents.recordAt? offset = some record) : record.Small := by
  rw [Contents.recordAt?_eq, Option.map_eq_some_iff] at h
  obtain ⟨⟨found, rest⟩, hfound, rfl⟩ := h
  exact Record.parse?_small hfound

/-! ## Appended records -/

/-- Records one behind the other are found, and then what follows them. -/
theorem records_fromOffset_encodeAll {capacity : Nat} {records : List Record}
    (hsmall : ∀ record ∈ records, record.Small) (front tail : Bytes)
    (hstarts : ∀ found ∈ Record.placed front.length records, found.1 < capacity) :
    (fromOffset capacity (.ofBytes (front ++ Record.encodeAll records ++ tail)) front.length).records =
      Record.placed front.length records ++
        (fromOffset capacity (.ofBytes (front ++ Record.encodeAll records ++ tail))
          (front.length + (Record.encodeAll records).length)).records := by
  induction records generalizing front with
  | nil => simp [Record.placed]
  | cons record rest ih =>
    have hrecord := hsmall record List.mem_cons_self
    have hbelow : front.length < capacity := hstarts _ List.mem_cons_self
    have hlong : ¬ ((front ++ Record.encodeAll (record :: rest) ++ tail).length ≤ front.length ∨
        capacity ≤ front.length) := by
      have := record.length_pos
      simp only [Record.encodeAll_cons, List.length_append, Record.length_encode]
      omega
    have hdrop : (front ++ Record.encodeAll (record :: rest) ++ tail).drop front.length =
        record.encode ++ (Record.encodeAll rest ++ tail) := by
      simp [List.append_assoc]
    rw [records_fromOffset, if_neg hlong, hdrop,
      Record.parse?_encode_append hrecord.key hrecord.value]
    -- the first record belongs to the front of the next step
    have hrest := ih (fun other hother => hsmall other (List.mem_cons_of_mem _ hother))
      (front ++ record.encode) (fun found hfound => hstarts found (List.mem_cons_of_mem _ (by
        simpa using hfound)))
    have hbytes : front ++ record.encode ++ Record.encodeAll rest ++ tail =
        front ++ Record.encodeAll (record :: rest) ++ tail := by
      simp [List.append_assoc]
    rw [hbytes] at hrest
    simp only [List.length_append, Record.length_encode] at hrest
    have hlength : (Record.encodeAll (record :: rest)).length =
        record.length + (Record.encodeAll rest).length := by simp
    rw [Record.placed, hlength, ← Nat.add_assoc, List.cons_append, ← hrest]

/-- Behind whole records that end with the file, a scan ends as it should. -/
theorem torn_fromOffset_encodeAll {capacity : Nat} {records : List Record}
    (hsmall : ∀ record ∈ records, record.Small) (front : Bytes) :
    (fromOffset capacity (.ofBytes (front ++ Record.encodeAll records)) front.length).torn = false := by
  have hlength (bytes : Bytes) : (Contents.ofBytes bytes).length = bytes.length := by
    rw [← Contents.length_toBytes, Contents.toBytes_ofBytes]
  induction records generalizing front with
  | nil => rw [fromOffset, hlength, if_pos (.inl (by simp))]
  | cons record rest ih =>
    have hrecord := hsmall record List.mem_cons_self
    rw [fromOffset]
    split
    · rfl
    · have hdrop : (front ++ Record.encodeAll (record :: rest)).drop front.length =
          record.encode ++ Record.encodeAll rest := by simp
      rw [Contents.recordAt?_eq, Contents.toBytes_ofBytes, hdrop,
        Record.parse?_encode_append hrecord.key hrecord.value]
      -- the first record belongs to the front of the next step
      have hrest := ih (fun other hother => hsmall other (List.mem_cons_of_mem _ hother))
        (front ++ record.encode)
      rwa [List.append_assoc, List.length_append, Record.length_encode,
        ← Record.encodeAll_cons] at hrest

/-- The bytes are records, one behind the other, that a scan finds. -/
def Whole (capacity : Nat) (bytes : Bytes) : Prop :=
  ∃ records, bytes = Record.encodeAll records ∧ (∀ record ∈ records, record.Small) ∧
    ∀ found ∈ Record.placed 0 records, found.1 < capacity

theorem whole_nil (capacity : Nat) : Whole capacity [] :=
  ⟨[], rfl, by simp, by simp [Record.placed]⟩

/-- A segment of whole records has no torn end. -/
theorem Whole.torn_eq {capacity : Nat} {bytes : Bytes} (h : Whole capacity bytes) :
    (ofContents capacity (.ofBytes bytes)).torn = false := by
  obtain ⟨records, rfl, hsmall, -⟩ := h
  exact torn_fromOffset_encodeAll hsmall []

/-- What follows appended records, if no record, adds nothing to them. -/
theorem recordsIn_encodeAll_append {capacity : Nat} {records : List Record}
    (hsmall : ∀ record ∈ records, record.Small)
    (hstarts : ∀ found ∈ Record.placed 0 records, found.1 < capacity) {tail : Bytes}
    (htail : Record.parse? tail = none ∨ capacity ≤ (Record.encodeAll records).length) :
    recordsIn capacity (Record.encodeAll records ++ tail) = Record.placed 0 records := by
  have h := records_fromOffset_encodeAll hsmall [] tail hstarts
  simp only [List.nil_append, List.length_nil, Nat.zero_add] at h
  rw [recordsIn, ofContents, h, records_fromOffset]
  -- behind the records the scan ends, at the end of the bytes or at what is no record
  split
  · simp
  · rename_i hinside
    simp only [not_or, Nat.not_le] at hinside
    rw [List.drop_left, htail.resolve_right (by omega), List.append_nil]

/-- Records that were written are found at their offsets. -/
theorem recordsIn_encodeAll {capacity : Nat} {records : List Record}
    (hsmall : ∀ record ∈ records, record.Small)
    (hstarts : ∀ found ∈ Record.placed 0 records, found.1 < capacity) :
    recordsIn capacity (Record.encodeAll records) = Record.placed 0 records := by
  have hnil : Record.parse? [] = none ∨ capacity ≤ (Record.encodeAll records).length := .inl rfl
  have h := recordsIn_encodeAll_append hsmall hstarts hnil
  rwa [List.append_nil] at h

/-- What is found lies in the file as a whole. -/
theorem le_length_of_mem_recordsIn {capacity : Nat} {bytes : Bytes} {offset : Nat}
    {record : Record} (hfound : (offset, record) ∈ recordsIn capacity bytes) :
    offset + record.length ≤ bytes.length := by
  have hat := (mem_records_fromOffset hfound).2.2
  rw [Contents.recordAt?_eq, Contents.toBytes_ofBytes, Option.map_eq_some_iff] at hat
  obtain ⟨⟨other, rest⟩, hparse, rfl⟩ := hat
  have hlength := Record.length_of_parse? hparse
  rw [List.length_drop] at hlength
  have := other.length_pos
  dsimp only
  omega

/-- A record that is appended below the capacity is found behind the others. -/
theorem Whole.append {capacity : Nat} {bytes : Bytes} (h : Whole capacity bytes)
    (hbelow : bytes.length < capacity) {record : Record} (hsmall : record.Small) :
    Whole capacity (bytes ++ record.encode) ∧
      recordsIn capacity (bytes ++ record.encode) =
        recordsIn capacity bytes ++ [(bytes.length, record)] := by
  obtain ⟨records, rfl, hrecords, hstarts⟩ := h
  -- the records with the new one are small too, and each of them starts below the capacity
  have hplaced : Record.placed 0 (records ++ [record]) =
      Record.placed 0 records ++ [((Record.encodeAll records).length, record)] := by
    rw [Record.placed_append, Nat.zero_add]
    rfl
  have hall : ∀ other ∈ records ++ [record], other.Small := by
    intro other hother
    rcases List.mem_append.mp hother with hother | hother
    · exact hrecords other hother
    · rw [List.mem_singleton.mp hother]
      exact hsmall
  have hbelow' : ∀ found ∈ Record.placed 0 (records ++ [record]), found.1 < capacity := by
    intro found hfound
    rw [hplaced] at hfound
    rcases List.mem_append.mp hfound with hfound | hfound
    · exact hstarts found hfound
    · rw [List.mem_singleton.mp hfound]
      exact hbelow
  have hbytes : Record.encodeAll records ++ record.encode =
      Record.encodeAll (records ++ [record]) := by simp
  rw [hbytes]
  refine ⟨⟨_, rfl, hall, hbelow'⟩, ?_⟩
  rw [recordsIn_encodeAll hall hbelow', recordsIn_encodeAll hrecords hstarts, hplaced]

/-- A record whose append was cut short is not found. -/
theorem Whole.append_cut {capacity : Nat} {bytes : Bytes} (h : Whole capacity bytes)
    {record : Record} (hsmall : record.Small) {count : Nat} (hcount : count < record.length) :
    recordsIn capacity (bytes ++ record.encode.take count) = recordsIn capacity bytes := by
  obtain ⟨records, rfl, hrecords, hstarts⟩ := h
  rw [recordsIn_encodeAll hrecords hstarts]
  exact recordsIn_encodeAll_append hrecords hstarts (.inl (Record.parse?_take_encode hsmall hcount))

/-- Of appended records that are cut off at a byte, a scan finds those in front of the cut. -/
theorem recordsIn_take {capacity : Nat} {records : List Record}
    (hsmall : ∀ record ∈ records, record.Small)
    (hstarts : ∀ found ∈ Record.placed 0 records, found.1 < capacity) (stop : Nat) :
    ∃ count, recordsIn capacity ((Record.encodeAll records).take stop) =
        Record.placed 0 (records.take count) ∧
      ∀ front rest, records = front ++ rest → (Record.encodeAll front).length ≤ stop →
        front.length ≤ count := by
  rcases List.take_flatMap_cases Record.encode records stop with hlong | hcut
  · refine ⟨records.length, ?_, fun front rest hrecords _ => by simp [hrecords]⟩
    rw [Record.encodeAll, List.take_of_length_le hlong, List.take_length]
    exact recordsIn_encodeAll hsmall hstarts
  · obtain ⟨front, record, rest, rfl, htake, hshort, hfront⟩ := hcut
    have hsmall' : ∀ other ∈ front, other.Small :=
      fun other hother => hsmall other (List.mem_append_left _ hother)
    have hstarts' : ∀ found ∈ Record.placed 0 front, found.1 < capacity := by
      intro found hfound
      refine hstarts found ?_
      rw [Record.placed_append]
      exact List.mem_append_left _ hfound
    refine ⟨front.length, ?_, hfront⟩
    rw [List.take_left' rfl, Record.encodeAll, htake]
    -- the record with the cut in it has lost its end
    refine recordsIn_encodeAll_append hsmall' hstarts' (.inl ?_)
    refine Record.parse?_take_encode (hsmall record (by simp)) ?_
    rwa [Record.length_encode] at hshort

/-- Of whole records that are cut off at a byte, a scan finds those that end in front of the cut, and
those in front of them. -/
theorem Whole.take {capacity : Nat} {bytes : Bytes} (h : Whole capacity bytes) (stop : Nat) :
    ∃ count, recordsIn capacity (bytes.take stop) = (recordsIn capacity bytes).take count ∧
      ∀ front rest, recordsIn capacity bytes = front ++ rest →
        (∀ entry ∈ front, entry.1 + entry.2.length ≤ stop) → front.length ≤ count := by
  obtain ⟨records, rfl, hsmall, hstarts⟩ := h
  obtain ⟨count, htaken, hfront⟩ := recordsIn_take hsmall hstarts stop
  rw [recordsIn_encodeAll hsmall hstarts]
  refine ⟨count, htaken.trans (Record.placed_take 0 records count), fun front rest hsplit hends => ?_⟩
  have hplaced : Record.placed 0 (records.take front.length) = front := by
    rw [Record.placed_take, hsplit, List.take_left]
  have hlength : (records.take front.length).length = front.length := by
    rw [← Record.length_placed 0, hplaced]
  rw [← hlength]
  refine hfront _ (records.drop front.length) (List.take_append_drop _ _).symm ?_
  -- the last of the records in front tells how far they reach
  rcases List.eq_nil_or_concat (records.take front.length) with hnil | ⟨before, last, hlast⟩
  · rw [hnil]
    exact Nat.zero_le _
  · have hmem : ((Record.encodeAll before).length, last) ∈ front := by
      rw [← hplaced, hlast, List.concat_eq_append, Record.placed_append, Nat.zero_add]
      exact List.mem_append_right _ List.mem_cons_self
    rw [hlast, List.concat_eq_append, Record.encodeAll_append, List.length_append]
    simpa using hends _ hmem

end Scan

end BarrierStore
