import BarrierStore.Segment.Record

/-!
# Reading a record

What is read as a record is the one record whose bytes stand in front, and a limit hides the bytes
behind it. The only fault is a length that no memory holds, under a limit that admits it.

The module introduces:

* `Record.Small` — both lengths of a record fit their eight bytes;
* `Record.announced` — the length that the bytes give for the field in front;
* `Record.OverlongField`, `Record.Overlong` — a field that no memory holds is announced within the
  limit, in front, or as the key or the value of a record.

Main statement: `readWithin_iff`, what is read within a limit, when nothing is, and when reading
fails. It is put together from `readWithin_eq` and `readWithin_of_overlong`, the two ways to read,
and from `parse?_eq_some_iff`, what a record at the front is.
-/

namespace BarrierStore

namespace Record

variable {limit : Nat} {bytes rest : Bytes} {record : Record}

/-- Both lengths of the record fit their eight bytes. -/
structure Small (record : Record) : Prop where
  key : record.key.length < UInt64.size
  value : record.value.length < UInt64.size

instance (record : Record) : Decidable record.Small :=
  decidable_of_iff (record.key.length < UInt64.size ∧ record.value.length < UInt64.size)
    ⟨fun ⟨hkey, hvalue⟩ => ⟨hkey, hvalue⟩, fun ⟨hkey, hvalue⟩ => ⟨hkey, hvalue⟩⟩

/-- What is parsed is a record of lengths that are written. -/
theorem parse?_small (h : parse? bytes = some (record, rest)) : record.Small := by
  simp only [parse?, Option.bind_eq_bind, Option.bind_eq_some_iff] at h
  obtain ⟨⟨key, middle⟩, hkey, ⟨value, rest'⟩, hvalue, same⟩ := h
  cases same
  exact ⟨length_lt_of_takeField? hkey, length_lt_of_takeField? hvalue⟩

/-- A record is read exactly where its bytes stand in front. -/
theorem parse?_eq_some_iff :
    parse? bytes = some (record, rest) ↔ record.Small ∧ bytes = record.encode ++ rest := by
  constructor
  · intro h
    exact ⟨parse?_small h, eq_encode_append_of_parse? h⟩
  · intro h
    rw [h.2]
    exact parse?_encode_append h.1.key h.1.value rest

/-- No record is read exactly where no record's bytes stand in front. -/
theorem parse?_eq_none_iff :
    parse? bytes = none ↔ ∀ record : Record, record.Small → ¬ record.encode <+: bytes := by
  rw [Option.eq_none_iff_forall_ne_some]
  constructor
  · intro h record hsmall hfront
    obtain ⟨rest, hrest⟩ := hfront
    exact h (record, rest) (parse?_eq_some_iff.mpr ⟨hsmall, hrest.symm⟩)
  · intro h found hfound
    obtain ⟨hsmall, hbytes⟩ := parse?_eq_some_iff.mp hfound
    exact h found.1 hsmall ⟨found.2, hbytes.symm⟩

/-- Records in front of the same bytes are the same. -/
theorem eq_of_isPrefix {other : Record} (hsmall : record.Small) (hother : other.Small)
    (hrecord : record.encode <+: bytes) (hfront : other.encode <+: bytes) : other = record := by
  obtain ⟨rest, rfl⟩ := hrecord
  obtain ⟨tail, htail⟩ := hfront
  have hread := parse?_encode_append hsmall.key hsmall.value rest
  rw [← htail, parse?_encode_append hother.key hother.value] at hread
  simpa using congrArg (Option.map Prod.fst) hread

/-- A record that is cut short is no record. -/
theorem parse?_take_encode (hsmall : record.Small) {count : Nat}
    (h : count < record.length) : parse? (record.encode.take count) = none := by
  refine parse?_eq_none_iff.mpr fun other hother hfront => ?_
  -- the other record would stand in front of the whole encoding too
  have hsame := eq_of_isPrefix hsmall hother List.prefix_rfl (hfront.trans (List.take_prefix _ _))
  have hlength := hfront.length_le
  rw [hsame, List.length_take, length_encode] at hlength
  omega

/-- What stands in bytes that memory holds is small. -/
theorem small_of_isPrefix (hlength : bytes.length ≤ Bytes.maxLength)
    (hfront : record.encode <+: bytes) : record.Small := by
  have hle := hfront.length_le
  have hmax : Bytes.maxLength < UInt64.size := by decide
  rw [length_encode, length] at hle
  constructor <;> omega

/-! ## Within a limit -/

/-- The length that the bytes give for the field in front. -/
def announced (bytes : Bytes) : Nat :=
  Bytes.ofLittleEndian (bytes.take lengthWidth)

/-- The field in front is longer than any byte string, by the length it is announced with, but would
end within the limit. -/
structure OverlongField (limit : Nat) (bytes : Bytes) : Prop where
  whole : lengthWidth ≤ bytes.length
  within : lengthWidth + announced bytes ≤ limit
  overlong : Bytes.maxLength < announced bytes

/-- The key is announced so, or, behind a whole key, the value. -/
inductive Overlong (limit : Nat) (bytes : Bytes) : Prop
  | key (h : OverlongField limit bytes)
  | value (key : Bytes) (hkey : encodeField key <+: bytes.take limit)
      (h : OverlongField (limit - (encodeField key).length) (bytes.drop (encodeField key).length))

/-- A limit that memory holds admits no field that memory does not hold. -/
theorem not_overlong_of_le (h : limit ≤ Bytes.maxLength) : ¬ Overlong limit bytes := by
  intro hoverlong
  cases hoverlong with
  | key hkey =>
    have := hkey.within
    have := hkey.overlong
    omega
  | value key hkey hvalue =>
    have := hvalue.within
    have := hvalue.overlong
    omega

theorem announced_encodeField_append {field : Bytes} (h : field.length < UInt64.size) (rest : Bytes) :
    announced (encodeField field ++ rest) = field.length := by
  have hfront : (encodeField field ++ rest).take lengthWidth =
      Bytes.littleEndian lengthWidth field.length := by
    simp [encodeField]
  rw [announced, hfront, Bytes.ofLittleEndian_littleEndian]
  exact Nat.mod_eq_of_lt h

/-- A field that memory holds is not announced overlong, nor is what a limit or a cut leaves of it. -/
theorem not_overlongField_of_isPrefix {field : Bytes} (hfield : field.length ≤ Bytes.maxLength)
    (h : bytes.take limit <+: encodeField field ++ rest) : ¬ OverlongField limit bytes := by
  intro hoverlong
  obtain ⟨hwhole, hwithin, hlong⟩ := hoverlong
  obtain ⟨tail, htail⟩ := h
  have hmax : Bytes.maxLength < UInt64.size := by decide
  have hannounced : announced bytes = field.length := by
    rw [← announced_encodeField_append (by omega) rest, ← htail, announced, announced,
      List.take_append_of_le_length (by rw [List.length_take]; omega), List.take_take,
      Nat.min_eq_left (by omega)]
  omega

/-- A field with a length that no buffer can have fails. -/
theorem takeFieldWithin_of_overlong (h : OverlongField limit bytes) :
    takeFieldWithin limit bytes = .error .arithmetic := by
  obtain ⟨hwhole, hwithin, hlong⟩ := h
  unfold announced at hwithin hlong
  rw [takeFieldWithin, if_pos ⟨by omega, hwhole⟩]
  dsimp only
  rw [if_neg (by omega), if_pos hlong]

/-- Within a limit, a field is read as it stands in the bytes up to the limit. -/
theorem takeFieldWithin_eq (h : ¬ OverlongField limit bytes) :
    takeFieldWithin limit bytes = .ok ((takeField? (bytes.take limit)).map
      fun (field, _) => (field, bytes.drop (lengthWidth + field.length))) := by
  by_cases enough : lengthWidth ≤ limit ∧ Bytes.HasAtLeast bytes lengthWidth
  · -- the length is read, and it is the same up to the limit
    obtain ⟨room, long⟩ := enough
    have front : (bytes.take limit).take lengthWidth = bytes.take lengthWidth := by
      rw [List.take_take, Nat.min_eq_left room]
    have back : (bytes.take limit).drop lengthWidth =
        (bytes.drop lengthWidth).take (limit - lengthWidth) := List.drop_take
    have long' : Bytes.HasAtLeast (bytes.take limit) lengthWidth := by
      unfold Bytes.HasAtLeast at long ⊢
      simp
      omega
    have admitted : ¬ limit - lengthWidth < announced bytes → ¬ Bytes.maxLength < announced bytes :=
      fun within overlong => h ⟨long, by omega, overlong⟩
    rw [takeFieldWithin, if_pos ⟨room, long⟩, takeField?, takeField?, if_pos long, if_pos long']
    simp only [front, back]
    rw [announced] at admitted
    generalize Bytes.ofLittleEndian (bytes.take lengthWidth) = size at admitted ⊢
    by_cases beyond : limit - lengthWidth < size
    · -- the field would end behind the limit, and the bytes up to the limit do not hold it
      have short : ¬ Bytes.HasAtLeast ((bytes.drop lengthWidth).take (limit - lengthWidth)) size := by
        unfold Bytes.HasAtLeast
        simp
        omega
      rw [if_pos beyond, if_neg short]
      rfl
    · -- the field would end in front of it: what the bytes hold of the field, they hold up to the limit
      rw [if_neg beyond, if_neg (admitted beyond)]
      by_cases fits : Bytes.HasAtLeast (bytes.drop lengthWidth) size
      · have fits' : Bytes.HasAtLeast ((bytes.drop lengthWidth).take (limit - lengthWidth)) size := by
          unfold Bytes.HasAtLeast at fits ⊢
          rw [List.length_take]
          omega
        have width : ((bytes.drop lengthWidth).take size).length = size := by
          unfold Bytes.HasAtLeast at fits
          rw [List.length_take]
          omega
        rw [if_pos fits, if_pos fits', List.take_take, Nat.min_eq_left (Nat.not_lt.mp beyond)]
        simp only [Option.map_some, width, List.drop_drop]
      · have short : ¬ Bytes.HasAtLeast ((bytes.drop lengthWidth).take (limit - lengthWidth)) size := by
          unfold Bytes.HasAtLeast at fits ⊢
          rw [List.length_take]
          omega
        rw [if_neg fits, if_neg short]
        rfl
  · have short : ¬ Bytes.HasAtLeast (bytes.take limit) lengthWidth := by
      unfold Bytes.HasAtLeast at enough ⊢
      rw [List.length_take]
      omega
    rw [takeFieldWithin, if_neg enough, takeField?, if_neg short]
    rfl

/-- Within a limit, a record is read as it stands in the bytes up to the limit. -/
theorem readWithin_eq (h : ¬ Overlong limit bytes) :
    readWithin limit bytes = .ok ((parse? (bytes.take limit)).map
      fun (record, _) => (record, bytes.drop record.length)) := by
  rw [readWithin, takeFieldWithin_eq fun hkey => h (.key hkey), parse?]
  cases hkey : takeField? (bytes.take limit) with
  | none => rfl
  | some found =>
    -- the value has the limit that the key has left
    obtain ⟨key, middle⟩ := found
    have front := eq_encodeField_append_of_takeField? hkey
    have back : middle = (bytes.drop (lengthWidth + key.length)).take
        (limit - lengthWidth - key.length) := by
      have := congrArg (List.drop (lengthWidth + key.length)) front
      rw [List.drop_left' (length_encodeField key), List.drop_take] at this
      rw [← this, Nat.sub_sub]
    have admitted : ¬ OverlongField (limit - lengthWidth - key.length)
        (bytes.drop (lengthWidth + key.length)) := by
      intro hvalue
      refine h (.value key ⟨middle, front.symm⟩ ?_)
      rwa [length_encodeField, ← Nat.sub_sub]
    have tail := takeFieldWithin_eq admitted
    simp only [Option.map_some, bind, Except.bind, pure, Except.pure, Option.bind] at tail ⊢
    rw [tail, back]
    cases takeField? ((bytes.drop (lengthWidth + key.length)).take (limit - lengthWidth - key.length)) with
    | none => rfl
    | some found =>
      obtain ⟨value, rest⟩ := found
      simp only [Option.map_some, length, List.drop_drop]
      congr 4
      omega

/-- A length that no memory holds is a fault, under a limit that admits it. -/
theorem readWithin_of_overlong (hlength : bytes.length ≤ Bytes.maxLength)
    (h : Overlong limit bytes) : readWithin limit bytes = .error .arithmetic := by
  cases h with
  | key hkey => rw [readWithin, takeFieldWithin_of_overlong hkey]; rfl
  | value key hkey hvalue =>
    obtain ⟨middle, hmiddle⟩ := hkey
    -- the key lies in the bytes, so it is read
    have hheld : key.length ≤ Bytes.maxLength := by
      have hle := congrArg List.length hmiddle
      rw [List.length_append, length_encodeField, List.length_take] at hle
      omega
    have hmax : Bytes.maxLength < UInt64.size := by decide
    have hread := takeField?_encodeField_append (show key.length < UInt64.size by omega) middle
    rw [hmiddle] at hread
    have hfront : bytes.take limit <+: encodeField key ++ middle := hmiddle ▸ List.prefix_rfl
    rw [length_encodeField, ← Nat.sub_sub] at hvalue
    rw [readWithin, takeFieldWithin_eq (not_overlongField_of_isPrefix hheld hfront), hread]
    simp only [Option.map_some, bind, Except.bind]
    rw [takeFieldWithin_of_overlong hvalue]

/-- No field starts with another one. -/
theorem eq_of_encodeField_isPrefix {field other : Bytes} (hfield : field.length < UInt64.size)
    (hother : other.length < UInt64.size) (h : encodeField other <+: encodeField field ++ rest) :
    other = field := by
  obtain ⟨tail, htail⟩ := h
  have hread := takeField?_encodeField_append hfield rest
  rw [← htail, takeField?_encodeField_append hother] at hread
  simpa using congrArg (Option.map Prod.fst) hread

/-- A record that memory holds announces nothing overlong, nor does what a limit or a cut leaves
of it. -/
theorem not_overlong_of_isPrefix (hlength : bytes.length ≤ Bytes.maxLength)
    (hkey : record.key.length ≤ Bytes.maxLength) (hvalue : record.value.length ≤ Bytes.maxLength)
    (h : bytes.take limit <+: record.encode ++ rest) : ¬ Overlong limit bytes := by
  rw [encode, List.append_assoc] at h
  intro hoverlong
  cases hoverlong with
  | key hfield => exact not_overlongField_of_isPrefix hkey h hfield
  | value other hother hfield =>
    -- the whole key in front of the value is the key of the record
    have hmax : Bytes.maxLength < UInt64.size := by decide
    have hheld := hother.length_le
    rw [length_encodeField, List.length_take] at hheld
    obtain rfl := eq_of_encodeField_isPrefix (by omega) (by omega) (hother.trans h)
    obtain ⟨tail, htail⟩ := h
    have hbehind := congrArg (List.drop (encodeField record.key).length) htail
    rw [List.drop_left, List.drop_append_of_le_length hother.length_le, List.drop_take] at hbehind
    exact not_overlongField_of_isPrefix hvalue ⟨tail, hbehind⟩ hfield

/-- What is announced behind the limit does not count. -/
theorem overlongField_take : OverlongField limit (bytes.take limit) ↔ OverlongField limit bytes := by
  have hfront (h : lengthWidth ≤ limit) : announced (bytes.take limit) = announced bytes := by
    rw [announced, announced, List.take_take, Nat.min_eq_left h]
  constructor
  · intro ⟨hwhole, hwithin, hlong⟩
    rw [List.length_take] at hwhole
    rw [hfront (by omega)] at hwithin hlong
    exact ⟨by omega, hwithin, hlong⟩
  · intro ⟨hwhole, hwithin, hlong⟩
    rw [← hfront (by omega)] at hwithin hlong
    exact ⟨by rw [List.length_take]; omega, hwithin, hlong⟩

/-- Bytes behind the limit do not matter to that. -/
theorem overlong_take : Overlong limit (bytes.take limit) ↔ Overlong limit bytes := by
  constructor
  · intro h
    cases h with
    | key hkey => exact .key (overlongField_take.mp hkey)
    | value key hkey hvalue =>
      rw [List.drop_take, overlongField_take] at hvalue
      rw [List.take_take, Nat.min_self] at hkey
      exact .value key hkey hvalue
  · intro h
    cases h with
    | key hkey => exact .key (overlongField_take.mpr hkey)
    | value key hkey hvalue =>
      refine .value key (by rwa [List.take_take, Nat.min_self]) ?_
      rwa [List.drop_take, overlongField_take]

/-- The bytes behind the limit do not count. -/
theorem readWithin_take (hlength : bytes.length ≤ Bytes.maxLength) :
    readWithin limit bytes = (readWithin limit (bytes.take limit)).map
      (Option.map fun (record, _) => (record, bytes.drop record.length)) := by
  have hlength' : (bytes.take limit).length ≤ Bytes.maxLength := by
    rw [List.length_take]
    omega
  by_cases hoverlong : Overlong limit bytes
  · rw [readWithin_of_overlong hlength hoverlong,
      readWithin_of_overlong hlength' (overlong_take.mpr hoverlong)]
    rfl
  · rw [readWithin_eq hoverlong, readWithin_eq (mt overlong_take.mp hoverlong), List.take_take,
      Nat.min_self, Except.map, Option.map_map]
    rfl

/-- Where a record stands in front of bytes that memory holds, nothing overlong is announced. -/
theorem not_overlong_of_front (hlength : bytes.length ≤ Bytes.maxLength)
    (hfront : record.encode <+: bytes.take limit) : ¬ Overlong limit bytes := by
  obtain ⟨rest, hrest⟩ := hfront
  have hheld := congrArg List.length hrest
  rw [List.length_append, length_encode, length, List.length_take] at hheld
  have hfront : bytes.take limit <+: record.encode ++ rest := hrest ▸ List.prefix_rfl
  exact not_overlong_of_isPrefix hlength (by omega) (by omega) hfront

/-- A record is read exactly if it stands whole within the limit. -/
theorem readWithin_eq_some_iff (hlength : bytes.length ≤ Bytes.maxLength) :
    readWithin limit bytes = .ok (some (record, rest)) ↔
      record.encode <+: bytes.take limit ∧ rest = bytes.drop record.length := by
  constructor
  · intro h
    by_cases hoverlong : Overlong limit bytes
    · rw [readWithin_of_overlong hlength hoverlong] at h
      cases h
    · rw [readWithin_eq hoverlong, Except.ok.injEq, Option.map_eq_some_iff] at h
      obtain ⟨found, hfound, hsame⟩ := h
      cases hsame
      exact ⟨⟨found.2, (parse?_eq_some_iff.mp hfound).2.symm⟩, rfl⟩
  · intro h
    obtain ⟨hfront, hrest⟩ := h
    have hsmall : record.Small :=
      small_of_isPrefix hlength (hfront.trans (List.take_prefix _ _))
    rw [readWithin_eq (not_overlong_of_front hlength hfront), hrest]
    obtain ⟨tail, htail⟩ := hfront
    rw [parse?_eq_some_iff.mpr ⟨hsmall, htail.symm⟩, Option.map_some]

/-- Nothing is read if no record does, and no length is overlong. -/
theorem readWithin_eq_none_iff (hlength : bytes.length ≤ Bytes.maxLength) :
    readWithin limit bytes = .ok none ↔
      (∀ record : Record, ¬ record.encode <+: bytes.take limit) ∧ ¬ Overlong limit bytes := by
  by_cases hoverlong : Overlong limit bytes
  · simp [readWithin_of_overlong hlength hoverlong, hoverlong]
  · rw [readWithin_eq hoverlong, Except.ok.injEq, Option.map_eq_none_iff, parse?_eq_none_iff]
    constructor
    · intro h
      refine ⟨fun record hfront => h record ?_ hfront, hoverlong⟩
      exact small_of_isPrefix hlength (hfront.trans (List.take_prefix _ _))
    · intro h record _
      exact h.1 record

/-- Reading fails exactly at an overlong length. -/
theorem readWithin_eq_error_iff (hlength : bytes.length ≤ Bytes.maxLength) {fault : Fault} :
    readWithin limit bytes = .error fault ↔ fault = .arithmetic ∧ Overlong limit bytes := by
  by_cases hoverlong : Overlong limit bytes
  · simp [readWithin_of_overlong hlength hoverlong, hoverlong, eq_comm]
  · simp [readWithin_eq hoverlong, hoverlong]

/-- A record is read back whatever follows it, within a limit that does not cut it. -/
theorem readWithin_encode_append (hlength : (record.encode ++ rest).length ≤ Bytes.maxLength)
    (hlimit : record.length ≤ limit) :
    readWithin limit (record.encode ++ rest) = .ok (some (record, rest)) := by
  refine (readWithin_eq_some_iff hlength).mpr ⟨?_, ?_⟩
  · exact List.prefix_take_iff.mpr ⟨List.prefix_append _ _, by rwa [length_encode]⟩
  · rw [← length_encode, List.drop_left]

/-- A record that is cut short is not read, whatever the limit. -/
theorem readWithin_take_encode (hkey : record.key.length ≤ Bytes.maxLength)
    (hvalue : record.value.length ≤ Bytes.maxLength) {count : Nat} (hcount : count < record.length)
    (hlength : (record.encode.take count).length ≤ Bytes.maxLength) :
    readWithin limit (record.encode.take count) = .ok none := by
  refine (readWithin_eq_none_iff hlength).mpr ⟨fun other hfront => ?_, ?_⟩
  · have hsmall : record.Small := by
      have hmax : Bytes.maxLength < UInt64.size := by decide
      constructor <;> omega
    have hcut := hfront.trans (List.take_prefix _ _)
    exact parse?_eq_none_iff.mp (parse?_take_encode hsmall hcount) other
      (small_of_isPrefix hlength hcut) hcut
  · have hcut : (record.encode.take count).take limit <+: record.encode ++ [] := by
      rw [List.append_nil]
      exact (List.take_prefix _ _).trans (List.take_prefix _ _)
    exact not_overlong_of_isPrefix hlength hkey hvalue hcut

/-- Within a limit, the record that is read is the one whose bytes stand in front, up to the limit,
and what follows it is left; nothing is read where no record stands there, and reading fails only
where a field that no memory holds is announced within the limit. The bytes behind the limit do not
count. A record is read back whatever follows it, and not at all once it is cut short. -/
theorem readWithin_iff (limit : Nat) {bytes : Bytes} (hlength : bytes.length ≤ Bytes.maxLength) :
    (∀ record rest, readWithin limit bytes = .ok (some (record, rest)) ↔
      record.encode <+: bytes.take limit ∧ rest = bytes.drop record.length) ∧
    (readWithin limit bytes = .ok none ↔
      (∀ record : Record, ¬ record.encode <+: bytes.take limit) ∧ ¬ Overlong limit bytes) ∧
    (∀ fault, readWithin limit bytes = .error fault ↔ fault = .arithmetic ∧ Overlong limit bytes) ∧
    (limit ≤ Bytes.maxLength → ¬ Overlong limit bytes) ∧
    readWithin limit bytes = (readWithin limit (bytes.take limit)).map
      (Option.map fun (record, _) => (record, bytes.drop record.length)) ∧
    (∀ record rest, bytes = encode record ++ rest → record.length ≤ limit →
      readWithin limit bytes = .ok (some (record, rest))) ∧
    (∀ record count, bytes = (encode record).take count → count < record.length →
      record.key.length ≤ Bytes.maxLength → record.value.length ≤ Bytes.maxLength →
      readWithin limit bytes = .ok none) := by
  refine ⟨fun _ _ => readWithin_eq_some_iff hlength, readWithin_eq_none_iff hlength,
    fun _ => readWithin_eq_error_iff hlength, not_overlong_of_le, readWithin_take hlength, ?_, ?_⟩
  · intro record rest hbytes hlimit
    rw [hbytes] at hlength ⊢
    exact readWithin_encode_append hlength hlimit
  · intro record count hbytes hcount hkey hvalue
    rw [hbytes] at hlength ⊢
    exact readWithin_take_encode hkey hvalue hcount hlength

/-- A record with a byte behind it is read, and the byte is left; cut short it is not read, whether the
bytes end early or the limit hides them. -/
theorem readWithin_iff_letters :
    let letters : Record := ⟨[107], [118, 119]⟩
    readWithin 20 (letters.encode ++ [1]) = .ok (some (letters, [1])) ∧
      readWithin 18 (letters.encode ++ [1]) = .ok none ∧
      readWithin 20 (letters.encode.take 18) = .ok none := by
  intro letters
  have hwhole : (letters.encode ++ [1]).length ≤ Bytes.maxLength := by decide
  have hcut : (letters.encode.take 18).length ≤ Bytes.maxLength := by decide
  have hshort (limit : Nat) : readWithin limit (letters.encode.take 18) = .ok none :=
    (readWithin_iff limit hcut).2.2.2.2.2.2 letters 18 rfl (by decide) (by decide) (by decide)
  refine ⟨?_, ?_, hshort 20⟩
  · obtain ⟨-, -, -, -, -, hread, -⟩ := readWithin_iff 20 hwhole
    exact hread letters [1] rfl (by decide)
  · obtain ⟨-, -, -, -, htaken, -⟩ := readWithin_iff 18 hwhole
    have hsame : (letters.encode ++ [1]).take 18 = letters.encode.take 18 := by decide
    rw [htaken, hsame, hshort 18]
    rfl

/-- Under a limit that admits it, a length that no memory holds is a fault, though no record stands
there. -/
theorem fails_on_overlong :
    (∀ record : Record, ¬ record.encode <+: [0, 0, 0, 0, 0, 0, 0, 128]) ∧
      readWithin (UInt64.size - 1) [0, 0, 0, 0, 0, 0, 0, 128] = .error .arithmetic := by
  constructor
  · intro record hfront
    have hle := hfront.length_le
    rw [length_encode, length, lengthWidth] at hle
    simp at hle
    omega
  · rfl

end Record

end BarrierStore
