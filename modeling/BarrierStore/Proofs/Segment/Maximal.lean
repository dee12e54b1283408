import BarrierStore.Proofs.Segment.Scan

/-!
# How far a scan goes

A scan finds whole records, one behind the other from the start of the file, and goes on as far as
there are any: it ends at the end of the file, at the capacity, or in front of bytes that no record
starts. It calls the end torn in the last case only.

The module introduces:

* `Scan.Reads` — what a scan from an offset on is, for any bytes.

Main statements: `Contents.recordAt?_eq_some_iff`, on a single record, and `ofContents_maximal`, on any
file, and on one that appended records were left in up to a cut.
-/

namespace BarrierStore

/-- A scan reads what is read within the bytes that are left of the file. -/
theorem Contents.readWithin_drop {contents : Contents} (hlength : contents.length ≤ Bytes.maxLength)
    (offset : Nat) :
    Record.readWithin (contents.length - offset) (contents.toBytes.drop offset) =
      .ok ((contents.recordAt? offset).map
        fun record => (record, contents.toBytes.drop (offset + record.length))) := by
  have hleft : contents.length - offset ≤ Bytes.maxLength := by omega
  rw [Record.readWithin_eq (Record.not_overlong_of_le hleft), List.take_of_length_le, recordAt?_eq,
    Option.map_map]
  · simp only [Function.comp_def, List.drop_drop]
  · simp only [List.length_drop, length_toBytes, Nat.le_refl]

/-- The record at an offset stands in front of what follows it. -/
theorem Contents.drop_of_recordAt? {contents : Contents} {offset : Nat} {record : Record}
    (h : contents.recordAt? offset = some record) :
    contents.toBytes.drop offset = record.encode ++ contents.toBytes.drop (offset + record.length) := by
  rw [recordAt?_eq, Option.map_eq_some_iff] at h
  obtain ⟨⟨found, rest⟩, hfound, rfl⟩ := h
  have hfront := Record.eq_encode_append_of_parse? hfound
  rw [← List.drop_drop, hfront, ← Record.length_encode, List.drop_left]

/-- What stands at an offset of a file is the record whose bytes stand there. -/
theorem Contents.recordAt?_eq_some_iff {contents : Contents}
    (hlength : contents.length ≤ Bytes.maxLength) {offset : Nat} {record : Record} :
    contents.recordAt? offset = some record ↔ record.encode <+: contents.toBytes.drop offset := by
  constructor
  · intro h
    rw [drop_of_recordAt? h]
    exact List.prefix_append _ _
  · intro hfront
    have hleft : (contents.toBytes.drop offset).length ≤ Bytes.maxLength := by
      rw [List.length_drop, length_toBytes]
      omega
    have hsmall := Record.small_of_isPrefix hleft hfront
    obtain ⟨rest, hrest⟩ := hfront
    rw [recordAt?_eq, Record.parse?_eq_some_iff.mpr ⟨hsmall, hrest.symm⟩]
    rfl

/-- Behind the end of a file no record stands. -/
theorem Contents.recordAt?_of_length_le {contents : Contents}
    (hlength : contents.length ≤ Bytes.maxLength) {offset : Nat} (h : contents.length ≤ offset) :
    contents.recordAt? offset = none := by
  refine Option.eq_none_iff_forall_ne_some.mpr fun record hrecord => ?_
  have hle := ((recordAt?_eq_some_iff hlength).mp hrecord).length_le
  have hpos := record.length_pos
  rw [Record.length_encode, List.length_drop, length_toBytes] at hle
  omega

namespace Scan

/-- What a scan from `start` on is: records of the bytes, one behind the other, as many as there are
below the capacity. -/
structure Reads (capacity : Nat) (bytes : Bytes) (start : Nat) (scan : Scan) : Prop where
  placed : scan.records = Record.placed start (scan.records.map Prod.snd)
  split : bytes.drop start =
    Record.encodeAll (scan.records.map Prod.snd) ++ bytes.drop scan.stop
  stop : scan.stop = start + (Record.encodeAll (scan.records.map Prod.snd)).length
  torn : scan.torn = true ↔ scan.stop < bytes.length ∧ scan.stop < capacity
  absent : scan.torn = true →
    ∀ record : Record, record.Small → ¬ record.encode <+: bytes.drop scan.stop

/-- From any offset on a scan reads as it should. -/
theorem reads_fromOffset (capacity : Nat) (contents : Contents) (start : Nat) :
    Reads capacity contents.toBytes start (fromOffset capacity contents start) := by
  -- along the recursion of the scan: at its end, at bytes that no record starts, at a record
  fun_induction fromOffset capacity contents start with
  | case1 start hends =>
    refine ⟨rfl, rfl, rfl, ?_, fun htorn => absurd htorn Bool.false_ne_true⟩
    rw [Contents.length_toBytes]
    simp
    omega
  | case2 start hinside hnone =>
    refine ⟨rfl, rfl, rfl, ?_, fun _ => ?_⟩
    · rw [Contents.length_toBytes]
      simp
      omega
    · rw [Contents.recordAt?_eq, Option.map_eq_none_iff] at hnone
      exact Record.parse?_eq_none_iff.mp hnone
  | case3 start hinside record hrecord tail ih =>
    -- the record is in front of what the rest of the scan reads
    refine ⟨?_, ?_, ?_, ih.torn, ih.absent⟩
    · rw [List.map_cons, Record.placed, ← ih.placed]
    · rw [List.map_cons, Record.encodeAll_cons, List.append_assoc, ← ih.split]
      exact Contents.drop_of_recordAt? hrecord
    · rw [List.map_cons, Record.encodeAll_cons, List.length_append, Record.length_encode,
        ← Nat.add_assoc]
      exact ih.stop

namespace Reads

variable {capacity : Nat} {bytes : Bytes} {scan : Scan}

/-- From the start of the file on, the records are the bytes in front of the end of the scan. -/
theorem take_eq (h : Reads capacity bytes 0 scan) :
    bytes.take scan.stop = Record.encodeAll (scan.records.map Prod.snd) := by
  have hsplit := h.split
  rw [List.drop_zero] at hsplit
  rw [h.stop, Nat.zero_add]
  exact (congrArg (List.take _) hsplit).trans List.take_left

/-- A scan stops in the file. -/
theorem stop_le (h : Reads capacity bytes 0 scan) : scan.stop ≤ bytes.length := by
  have hlength := congrArg List.length h.take_eq
  have hstop := h.stop
  rw [List.length_take] at hlength
  omega

/-- Every record has its offset behind the records in front of it. -/
theorem offset_eq (h : Reads capacity bytes 0 scan) {front rest : List (Nat × Record)}
    {found : Nat × Record} (hsplit : scan.records = front ++ found :: rest) :
    found.1 = (Record.encodeAll (front.map Prod.snd)).length := by
  -- the records up to it are placed one behind the other, and so is the list cut there
  have hplaced := h.placed
  rw [hsplit, List.map_append, List.map_cons, Record.placed_append, Record.placed] at hplaced
  have hcount : front.length = (Record.placed 0 (front.map Prod.snd)).length := by simp
  have hfound := congrArg Prod.fst (List.cons.inj (List.append_inj_right hplaced hcount)).1
  rwa [Nat.zero_add] at hfound

/-- A scan ends where the file ends, at the capacity, or where no record starts. -/
theorem ends (h : Reads capacity bytes 0 scan) :
    bytes.length ≤ scan.stop ∨ capacity ≤ scan.stop ∨
      ∀ record : Record, record.Small → ¬ record.encode <+: bytes.drop scan.stop := by
  by_cases htorn : scan.torn = true
  · exact .inr (.inr (h.absent htorn))
  · rw [h.torn] at htorn
    omega

/-- The end of a segment is torn exactly if bytes are left below the capacity that start no record. -/
theorem torn_iff (h : Reads capacity bytes 0 scan) :
    scan.torn = true ↔ scan.stop < bytes.length ∧ scan.stop < capacity ∧
      ∀ record : Record, record.Small → ¬ record.encode <+: bytes.drop scan.stop := by
  constructor
  · intro htorn
    have hinside := h.torn.mp htorn
    exact ⟨hinside.1, hinside.2, h.absent htorn⟩
  · intro hend
    exact h.torn.mpr ⟨hend.1, hend.2.1⟩

end Reads

/-! ## Appended records up to a cut -/

variable {capacity : Nat} {contents : Contents} {written : List Record} {cut : Nat}

/-- A placed record ends where the records up to it end. -/
theorem exists_end_of_mem_placed {start : Nat} {records : List Record} {found : Nat × Record}
    (h : found ∈ Record.placed start records) :
    ∃ whole rest, records = whole ++ rest ∧ whole ≠ [] ∧
      found.1 + found.2.length = start + (Record.encodeAll whole).length := by
  obtain ⟨front, rest, hsplit, hoffset⟩ := Record.mem_placed_iff.mp h
  refine ⟨front ++ [found.2], rest, by simp [hsplit], by simp, ?_⟩
  rw [hoffset, Record.encodeAll_append, List.length_append, Nat.add_assoc]
  simp

/-- Of records up to a cut, a scan finds those that end in front of it. -/
theorem exists_front_of_cut (hsmall : ∀ record ∈ written, record.Small)
    (hstarts : ∀ found ∈ Record.placed 0 written, found.1 < capacity)
    (hcontents : contents.toBytes = (Record.encodeAll written).take cut) :
    ∃ front rest, written = front ++ rest ∧
      (ofContents capacity contents).records = Record.placed 0 front ∧
      ∀ whole, whole <+: written → (Record.encodeAll whole).length ≤ cut → whole <+: front := by
  obtain ⟨count, hrecords, hwhole⟩ := recordsIn_take hsmall hstarts cut
  refine ⟨written.take count, written.drop count, (List.take_append_drop _ _).symm, ?_, ?_⟩
  · rw [ofContents, fromOffset_ofBytes, hcontents]
    exact hrecords
  · intro whole hprefix hcut
    obtain ⟨rest, hrest⟩ := hprefix
    exact List.prefix_take_iff.mpr ⟨⟨rest, hrest⟩, hwhole whole rest hrest.symm hcut⟩

/-- Of records that were cut off somewhere, those in front of the cut are found. -/
theorem records_of_cut (hsmall : ∀ record ∈ written, record.Small)
    (hstarts : ∀ found ∈ Record.placed 0 written, found.1 < capacity)
    (hcontents : contents.toBytes = (Record.encodeAll written).take cut) :
    (ofContents capacity contents).records =
      (Record.placed 0 written).filter fun found => found.1 + found.2.length ≤ cut := by
  obtain ⟨front, rest, rfl, hrecords, hfront⟩ := exists_front_of_cut hsmall hstarts hcontents
  have hreads := reads_fromOffset capacity contents 0
  have hcut : (Record.encodeAll front).length ≤ cut := by
    have hstop := hreads.stop
    have hle := hreads.stop_le
    rw [← ofContents, hrecords, Record.placed_records, Nat.zero_add] at hstop
    rw [← ofContents, hstop, hcontents, List.length_take] at hle
    omega
  rw [hrecords, Record.placed_append, List.filter_append, List.filter_eq_self.mpr,
    List.filter_eq_nil_iff.mpr, List.append_nil]
  · -- what ended in front of the cut would be in front
    intro found hfound
    obtain ⟨more, tail, rfl, hmore, hend⟩ := exists_end_of_mem_placed hfound
    rw [decide_eq_true_iff]
    intro hends
    have hprefix := hfront (front ++ more) ⟨tail, by simp⟩ (by
      rw [Record.encodeAll_append, List.length_append]
      omega)
    have hlength := hprefix.length_le
    rw [List.length_append] at hlength
    have := List.length_pos_iff.mpr hmore
    omega
  · -- what is in front ends in front of the cut
    intro found hfound
    obtain ⟨whole, tail, rfl, -, hend⟩ := exists_end_of_mem_placed hfound
    rw [Record.encodeAll_append, List.length_append] at hcut
    rw [decide_eq_true_iff]
    omega

theorem torn_iff_of_cut (hsmall : ∀ record ∈ written, record.Small)
    (hstarts : ∀ found ∈ Record.placed 0 written, found.1 < capacity)
    (hcut : cut ≤ (Record.encodeAll written).length)
    (hcontents : contents.toBytes = (Record.encodeAll written).take cut) :
    (ofContents capacity contents).torn = true ↔
      ∀ front, front <+: written → (Record.encodeAll front).length ≠ cut := by
  obtain ⟨front, rest, rfl, hrecords, hfront⟩ := exists_front_of_cut hsmall hstarts hcontents
  have hreads := reads_fromOffset capacity contents 0
  rw [← ofContents] at hreads
  have hlength : contents.toBytes.length = cut := by
    rw [hcontents, List.length_take, Nat.min_eq_left hcut]
  have hstop := hreads.stop
  rw [hrecords, Record.placed_records, Nat.zero_add] at hstop
  have hle := hreads.stop_le
  rw [hreads.torn, hlength]
  constructor
  · intro hinside whole hwhole hend
    -- the records up to the cut would all be found
    obtain ⟨more, rfl⟩ := hfront whole hwhole (Nat.le_of_eq hend)
    rw [Record.encodeAll_append, List.length_append] at hstop
    omega
  · intro hboundary
    have hbefore := hboundary front (List.prefix_append _ _)
    refine ⟨by omega, ?_⟩
    -- the record with the cut in it starts where the scan ends
    cases rest with
    | nil =>
      rw [List.append_nil] at hcut
      omega
    | cons next rest =>
      rw [hstop]
      refine hstarts ((Record.encodeAll front).length, next) ?_
      exact Record.mem_placed_iff.mpr ⟨front, rest, rfl, (Nat.zero_add _).symm⟩

/-- A scan finds exactly the whole records. They are the bytes in front of the end of the scan, each
has its offset behind those in front of it, below the capacity, and the scan ends where the file ends,
at the capacity, or where no record starts; the end is torn in the last case only. Of appended records
that a cut has shortened, those in front of the cut are found, and the end is torn unless one of them
ends at the cut. -/
theorem ofContents_maximal (capacity : Nat) (contents : Contents) :
    let scan := ofContents capacity contents
    let absent := ∀ record : Record, record.Small → ¬ record.encode <+: contents.toBytes.drop scan.stop
    (contents.toBytes.take scan.stop = Record.encodeAll (scan.records.map Prod.snd) ∧
      scan.stop = (Record.encodeAll (scan.records.map Prod.snd)).length) ∧
    (∀ front found rest, scan.records = front ++ found :: rest →
      found.1 = (Record.encodeAll (front.map Prod.snd)).length ∧ found.1 < capacity) ∧
    (contents.length ≤ scan.stop ∨ capacity ≤ scan.stop ∨ absent) ∧
    (scan.torn = true ↔ scan.stop < contents.length ∧ scan.stop < capacity ∧ absent) ∧
    ∀ written : List Record, (∀ record ∈ written, record.Small) →
      (∀ found ∈ Record.placed 0 written, found.1 < capacity) →
      ∀ cut ≤ (Record.encodeAll written).length,
        contents.toBytes = (Record.encodeAll written).take cut →
        scan.records = (Record.placed 0 written).filter (fun found => found.1 + found.2.length ≤ cut) ∧
          (scan.torn = true ↔ ∀ front, front <+: written → (Record.encodeAll front).length ≠ cut) := by
  intro scan absent
  have hreads : Reads capacity contents.toBytes 0 scan := reads_fromOffset capacity contents 0
  have hlength : contents.toBytes.length = contents.length := contents.length_toBytes
  refine ⟨⟨hreads.take_eq, by rw [hreads.stop, Nat.zero_add]⟩, ?_, ?_, ?_, ?_⟩
  · intro front found rest hsplit
    have hfound : found ∈ scan.records := hsplit ▸ List.mem_append_right _ List.mem_cons_self
    exact ⟨hreads.offset_eq hsplit, (mem_records_fromOffset hfound).2.1⟩
  · rw [← hlength]
    exact hreads.ends
  · rw [← hlength]
    exact hreads.torn_iff
  · intro written hsmall hstarts cut hcut hcontents
    exact ⟨records_of_cut hsmall hstarts hcontents,
      torn_iff_of_cut hsmall hstarts hcut hcontents⟩

/-- The second of two records is cut: the first is found, and the end is torn. -/
theorem ofContents_maximal_pair :
    let pair : List Record := [⟨[107], [118]⟩, ⟨[107], [119]⟩]
    let scan := ofContents 20 (.ofBytes ((Record.encodeAll pair).take 30))
    scan.records = [(0, ⟨[107], [118]⟩)] ∧ scan.torn = true := by
  intro pair scan
  have hsmall : ∀ record ∈ pair, record.Small := by decide
  have hstarts : ∀ found ∈ Record.placed 0 pair, found.1 < 20 := by decide
  obtain ⟨-, -, -, -, hcut⟩ := ofContents_maximal 20 (.ofBytes ((Record.encodeAll pair).take 30))
  obtain ⟨hrecords, htorn⟩ :=
    hcut pair hsmall hstarts 30 (by decide) (Contents.toBytes_ofBytes _)
  refine ⟨hrecords.trans (by decide), htorn.mpr fun front hfront => ?_⟩
  -- the records end at 0, 18 and 36
  have hends : ∀ count ≤ 2, (Record.encodeAll (pair.take count)).length ≠ 30 := by decide
  rw [List.prefix_iff_eq_take.mp hfront]
  exact hends _ hfront.length_le

end Scan

end BarrierStore
