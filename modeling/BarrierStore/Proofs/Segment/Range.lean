import BarrierStore.Proofs.Disk.Operations
import BarrierStore.Proofs.Text.Spelling
import BarrierStore.Segment.Range

/-!
# The range file and the capacity file

What is stored in the two files is loaded again, and loading looks at nothing but the bytes at the
file's name.

The module introduces `SegmentRange.ofBytes?` and `Capacity.ofBytes?`, what the bytes of the two files
say.

Main statements: `SegmentRange.ofBytes?_encode`, `Capacity.ofBytes?_encode`, and for loading
`SegmentRange.achieves_load` and `Capacity.achieves_load?`.
-/

namespace BarrierStore

namespace SegmentRange

/-- The range that the bytes of a range file spell; without a file the range is empty. -/
def ofBytes? : Option Bytes → Option SegmentRange
  | none => some empty
  | some bytes => do
    let text ← Utf8.decode? bytes
    (parse .empty text).toOption

/-- The text of a range is ASCII. -/
theorem decode?_encode (range : SegmentRange) :
    Utf8.decode? (Utf8.encode range.encode) = some range.encode := by
  refine Utf8.decode?_encode fun c hc => ?_
  simp only [encode, List.mem_append, List.mem_cons, List.not_mem_nil, or_false] at hc
  rcases hc with hc | rfl | hc | rfl
  · exact Decimal.lt_of_isDigit (Decimal.isDigit_of_mem_digits hc)
  · decide
  · exact Decimal.lt_of_isDigit (Decimal.isDigit_of_mem_digits hc)
  · decide

/-- The text of a range spells it, and is refused if it ends before it starts. -/
theorem parse_encode (path : Path) (range : SegmentRange) : parse path range.encode =
    if range.first ≤ range.next then .ok range
    else .error (.reversedRange range.first range.next) := by
  have hfields : Blank.fields range.encode =
      [Decimal.digits range.first.toNat, Decimal.digits range.next.toNat] := by
    rw [encode, Blank.fields_append_cons (fun _ => Blank.isBlank_digit) (Decimal.digits_ne_nil _)
      Blank.isBlank_newline, Blank.fields_append_cons (fun _ => Blank.isBlank_digit)
      (Decimal.digits_ne_nil _) Blank.isBlank_newline, Blank.fields_nil]
  simp only [parse, hfields, List.map_cons, List.map_nil, Decimal.parse?_digits]

/-- A stored range is what its file says. -/
theorem ofBytes?_encode {range : SegmentRange} (h : range.first ≤ range.next) :
    ofBytes? (some (Utf8.encode range.encode)) = some range := by
  rw [ofBytes?, decode?_encode, Option.bind_eq_bind, Option.bind_some, parse_encode, if_pos h]
  rfl

end SegmentRange

namespace SegmentRange

/-! ## The ids of a range -/

theorem toNat_ofNat_of_le {n : Nat} {w : UInt64} (h : n ≤ w.toNat) : (UInt64.ofNat n).toNat = n :=
  UInt64.toNat_ofNat_of_lt' (Nat.lt_of_le_of_lt h w.toNat_lt)

/-- The segments in a range are those from its first one up to the next one. -/
theorem mem_ids_iff {range : SegmentRange} {id : UInt64} :
    id ∈ range.ids ↔ range.first ≤ id ∧ id < range.next := by
  simp only [ids, count, List.mem_map, List.mem_range'_1, UInt64.le_iff_toNat_le,
    UInt64.lt_iff_toNat_lt]
  constructor
  · -- numbers up to the end of the range fit their 64 bits
    rintro ⟨n, hn, rfl⟩
    rw [toNat_ofNat_of_le (w := range.next) (by omega)]
    omega
  · intro h
    exact ⟨id.toNat, by omega, UInt64.ofNat_toNat⟩

/-- They are in order. -/
theorem pairwise_ids (range : SegmentRange) : range.ids.Pairwise (· < ·) := by
  rw [ids, List.pairwise_map]
  refine List.Pairwise.imp_of_mem (fun {m n} hm hn hlt => ?_) List.pairwise_lt_range'
  simp only [count, List.mem_range'_1] at hm hn
  rw [UInt64.lt_iff_toNat_lt, toNat_ofNat_of_le (w := range.next) (by omega),
    toNat_ofNat_of_le (w := range.next) (by omega)]
  exact hlt

/-- A range is cut in two at any id in it. -/
theorem ids_append {first middle next : UInt64} (h : first ≤ middle) (h' : middle ≤ next) :
    ids ⟨first, next⟩ = ids ⟨first, middle⟩ ++ ids ⟨middle, next⟩ := by
  rw [UInt64.le_iff_toNat_le] at h h'
  simp only [ids, count, ← List.map_append]
  have hsum : next.toNat - first.toNat =
      (middle.toNat - first.toNat) + (next.toNat - middle.toNat) := by omega
  have hmiddle : first.toNat + (middle.toNat - first.toNat) = middle.toNat := by omega
  rw [hsum, ← List.range'_append_1, hmiddle]

/-- No segment is in an empty range. -/
theorem ids_self (id : UInt64) : ids ⟨id, id⟩ = [] := by
  simp [ids, count]

/-- The range that starts at an id and ends behind it. -/
theorem ids_single {id next : UInt64} (h : next.toNat = id.toNat + 1) : ids ⟨id, next⟩ = [id] := by
  simp [ids, count, h]

theorem le_next {id next : UInt64} (h : next.toNat = id.toNat + 1) : id ≤ next := by
  rw [UInt64.le_iff_toNat_le, h]
  exact Nat.le_succ _

/-- The next segment is behind the active one, and there is none between them. -/
theorem eq_of_lt_next {id next other : UInt64} (h : next.toNat = id.toNat + 1) (hle : id ≤ other)
    (hlt : other < next) : other = id := by
  rw [UInt64.le_iff_toNat_le] at hle
  rw [UInt64.lt_iff_toNat_lt, h] at hlt
  exact UInt64.toNat_inj.mp (by omega)

/-- A range grows by one segment, the next one. -/
theorem of_grow? {range range' : SegmentRange} (h : range.grow? = some range') :
    range'.first = range.first ∧ range'.next.toNat = range.next.toNat + 1 := by
  unfold grow? at h
  split at h
  · rename_i hroom
    cases h
    refine ⟨rfl, ?_⟩
    rw [UInt64.toNat_add, UInt64.toNat_one, Nat.mod_eq_of_lt hroom]
  · cases h

end SegmentRange

namespace Capacity

/-- The capacity that the bytes of a capacity file spell. -/
def ofBytes? (bytes : Bytes) : Option UInt64 := do
  parse? (← Utf8.decode? bytes)

/-- The text of a capacity is ASCII. -/
theorem decode?_encode (capacity : UInt64) :
    Utf8.decode? (Utf8.encode (encode capacity)) = some (encode capacity) := by
  refine Utf8.decode?_encode fun c hc => ?_
  rcases List.mem_append.mp hc with hc | hc
  · exact Decimal.lt_of_isDigit (Decimal.isDigit_of_mem_digits hc)
  · rw [List.mem_singleton.mp hc]
    decide

/-- The text of a capacity spells it, and is refused if it is zero. -/
theorem parse?_encode (capacity : UInt64) :
    parse? (encode capacity) = if capacity = 0 then none else some capacity := by
  rw [parse?, encode, Blank.trim_concat (fun _ => Blank.isBlank_digit) (Decimal.digits_ne_nil _)
    Blank.isBlank_newline, Decimal.parse?_digits]

/-- A stored capacity is what its file says. -/
theorem ofBytes?_encode {capacity : UInt64} (h : capacity ≠ 0) :
    ofBytes? (Utf8.encode (encode capacity)) = some capacity := by
  rw [ofBytes?, decode?_encode, Option.bind_eq_bind, Option.bind_some, parse?_encode, if_neg h]

end Capacity

/-! ## Loading -/

section Loading

open Drive

variable {start : Disk} {during : Disk → Prop}

/-- To read a text changes nothing. -/
theorem achieves_readText? (path : Path) (hbefore : during start) :
    Achieves (readText? path) start during
      (fun text disk => start = disk ∧ ((text = none → start.Reaches path) → start.Admits path ∧
        match text with
        | none => start.bytesAt path.place = none
        | some text => ∃ bytes, start.bytesAt path.place = some bytes ∧
          Utf8.decode? bytes = some text))
      (fun _ disk => start = disk ∧ ¬ (start.Admits path ∧
        ∀ bytes, start.bytesAt path.place = some bytes → Utf8.decode? bytes ≠ none)) := by
  refine Achieves.bind ((achieves_contentsOf? path hbefore).imp_failed ?_) ?_
  · rintro fault disk - ⟨rfl, hadmits, -⟩
    exact ⟨rfl, fun both => hadmits both.1⟩
  rintro contents _ - ⟨rfl, hfound⟩
  cases contents with
  | none =>
    exact achieves_pure hbefore ⟨rfl, fun hreaches =>
      (hfound fun _ => hreaches rfl).imp_right Eq.symm⟩
  | some contents =>
    dsimp only
    -- the file is there, and its bytes are UTF-8 or not
    split
    · rename_i text htext
      exact achieves_pure hbefore ⟨rfl, fun _ =>
        (hfound nofun).imp_right fun hbytes => ⟨_, hbytes.symm, htext⟩⟩
    · rename_i hinvalid
      refine achieves_throw hbefore ⟨rfl, fun ⟨hadmits, hvalid⟩ => ?_⟩
      exact hvalid _ (hfound nofun).2.symm hinvalid

namespace SegmentRange

/-- Whether a text is a range does not depend on where it stands. -/
theorem toOption_parse (path other : Path) (text : List Char) :
    (parse path text).toOption = (parse other text).toOption := by
  unfold parse
  split
  · split <;> rfl
  · rfl

/-- A range that was read does not end before it starts. -/
theorem first_le_next_of_parse {path : Path} {text : List Char} {range : SegmentRange}
    (h : parse path text = .ok range) : range.first ≤ range.next := by
  unfold parse at h
  split at h
  · split at h
    · rename_i hle
      cases h
      exact hle
    · cases h
  · cases h

/-- A range that is read does not end before it starts. -/
theorem first_le_next_of_ofBytes? {bytes : Option Bytes} {range : SegmentRange}
    (h : ofBytes? bytes = some range) : range.first ≤ range.next := by
  cases bytes with
  | none =>
    cases h
    exact UInt64.le_refl _
  | some bytes =>
    obtain ⟨text, -, hrange⟩ := Option.bind_eq_some_iff.mp h
    cases hparse : parse .empty text with
    | error cause =>
      rw [hparse] at hrange
      cases hrange
    | ok found =>
      rw [hparse] at hrange
      cases hrange
      exact first_le_next_of_parse hparse

/-- Loading finds the range that the bytes at the file's name spell. -/
theorem achieves_load (path : Path) (hbefore : during start) :
    Achieves (load path) start during
      (fun range disk => start = disk ∧ range.first ≤ range.next ∧ (start.Reaches path →
        start.Admits path ∧ ofBytes? (start.bytesAt path.place) = some range))
      (fun _ disk => start = disk ∧
        ¬ (start.Admits path ∧ ∃ range, ofBytes? (start.bytesAt path.place) = some range)) := by
  refine Achieves.bind ((achieves_readText? path hbefore).imp_failed ?_) ?_
  · rintro fault disk - ⟨rfl, hinvalid⟩
    refine ⟨rfl, fun ⟨hadmits, range, hrange⟩ => hinvalid ⟨hadmits, fun bytes hbytes hdecode => ?_⟩⟩
    rw [hbytes, ofBytes?, hdecode] at hrange
    cases hrange
  rintro text _ - ⟨rfl, hfound⟩
  cases text with
  | none =>
    refine achieves_pure hbefore ⟨rfl, UInt64.le_refl _, fun hreaches =>
      (hfound fun _ => hreaches).imp_right fun hnone => ?_⟩
    rw [hnone]
    rfl
  | some text =>
    obtain ⟨hadmits, bytes, hbytes, hdecode⟩ := hfound nofun
    -- the path stands in the fault only
    have hparsed : ofBytes? (start.bytesAt path.place) = (parse path text).toOption := by
      rw [hbytes, ofBytes?, hdecode, toOption_parse path .empty]
      rfl
    dsimp only
    split
    · rename_i range hrange
      refine achieves_pure hbefore ⟨rfl, first_le_next_of_parse hrange, fun _ => ⟨hadmits, ?_⟩⟩
      rw [hparsed, hrange]
      rfl
    · rename_i cause hcause
      refine achieves_throw hbefore ⟨rfl, fun ⟨_, range, hrange⟩ => ?_⟩
      rw [hparsed, hcause] at hrange
      cases hrange

end SegmentRange

namespace Capacity

/-- Loading finds the capacity that the bytes at the file's name spell. -/
theorem achieves_load? (path : Path) (hbefore : during start) :
    Achieves (load? path) start during
      (fun capacity disk => start = disk ∧ ((capacity = none → start.Reaches path) →
        start.Admits path ∧ capacity = (start.bytesAt path.place).bind ofBytes? ∧
          (capacity = none → start.bytesAt path.place = none)))
      (fun _ disk => start = disk ∧ ¬ (start.Admits path ∧
        ∀ bytes, start.bytesAt path.place = some bytes → ofBytes? bytes ≠ none)) := by
  refine Achieves.bind ((achieves_readText? path hbefore).imp_failed ?_) ?_
  · rintro fault disk - ⟨rfl, hinvalid⟩
    refine ⟨rfl, fun ⟨hadmits, hvalid⟩ => hinvalid ⟨hadmits, fun bytes hbytes hdecode => ?_⟩⟩
    exact hvalid bytes hbytes (by rw [ofBytes?, hdecode]; rfl)
  rintro text _ - ⟨rfl, hfound⟩
  cases text with
  | none =>
    refine achieves_pure hbefore ⟨rfl, fun hreaches => (hfound fun _ => hreaches rfl).imp_right
      fun hnone => ?_⟩
    exact ⟨by rw [hnone]; rfl, fun _ => hnone⟩
  | some text =>
    obtain ⟨hadmits, bytes, hbytes, hdecode⟩ := hfound nofun
    have hparsed : ofBytes? bytes = parse? text := by
      rw [ofBytes?, hdecode]
      rfl
    dsimp only
    -- the text is there, and spells a capacity or not
    split
    · rename_i capacity hcapacity
      refine achieves_pure hbefore ⟨rfl, fun _ => ⟨hadmits, ?_, by simp⟩⟩
      rw [hbytes, Option.bind_some, hparsed, hcapacity]
    · rename_i hnone
      refine achieves_throw hbefore ⟨rfl, fun ⟨_, hvalid⟩ => ?_⟩
      exact hvalid bytes hbytes (hparsed.trans hnone)

end Capacity

end Loading

end BarrierStore
