import BarrierStore.Text.Ascii

/-!
# Each text has one form in UTF-8

The bytes behind a leading byte are read with the ranges that it promises, and these leave out every
number that a shorter sequence spells, every surrogate, and every number that is too large. So a unit
that is a character is the encoding of that character, and a byte string that decodes to a text is the
encoding of that text.

`lead?_cases` says what a leading byte promises, by the number of bytes behind it, and
`exists_of_continuation` reads one of these bytes; `eq_append_of_unit` is about one character.

Main statement: `Utf8.eq_encode_of_decode?`.
-/

namespace BarrierStore.Utf8

/-- What a leading byte promises, by the number of bytes behind it. -/
theorem lead?_cases {b low high : UInt8} {count bits : Nat}
    (h : lead? b = some (count, low, high, bits)) :
    (count = 0 ∧ b.toNat < 0x80 ∧ bits = b.toNat) ∨
    0x80 ≤ low.toNat ∧ high.toNat ≤ 0xBF ∧
      ((count = 1 ∧ 0xC2 ≤ b.toNat ∧ b.toNat < 0xE0 ∧ bits = b.toNat - 0xC0) ∨
      (count = 2 ∧ 0xE0 ≤ b.toNat ∧ b.toNat < 0xF0 ∧ bits = b.toNat - 0xE0 ∧
        (b.toNat = 0xE0 → 0xA0 ≤ low.toNat) ∧ (b.toNat = 0xED → high.toNat ≤ 0x9F)) ∨
      (count = 3 ∧ 0xF0 ≤ b.toNat ∧ b.toNat < 0xF5 ∧ bits = b.toNat - 0xF0 ∧
        (b.toNat = 0xF0 → 0x90 ≤ low.toNat) ∧ (b.toNat = 0xF4 → high.toNat ≤ 0x8F))) := by
  unfold lead? at h
  simp only [UInt8.lt_iff_toNat_lt, UInt8.reduceToNat, ← UInt8.toNat_inj] at h
  split at h
  · cases h
    exact .inl ⟨rfl, ‹_›, rfl⟩
  split at h
  · -- no leading byte
    cases h
  split at h
  · cases h
    exact .inr ⟨by decide, by decide, .inl ⟨rfl, by omega, ‹_›, rfl⟩⟩
  split at h
  · cases h
    refine .inr ⟨?_, ?_, .inr (.inl ⟨rfl, by omega, ‹_›, rfl, fun hb => ?_, fun hb => ?_⟩)⟩
    · split <;> decide
    · split <;> decide
    · rw [if_pos hb]
      decide
    · rw [if_pos hb]
      decide
  split at h
  · cases h
    refine .inr ⟨?_, ?_, .inr (.inr ⟨rfl, by omega, ‹_›, rfl, fun hb => ?_, fun hb => ?_⟩)⟩
    · split <;> decide
    · split <;> decide
    · rw [if_pos hb]
      decide
    · rw [if_pos hb]
      decide
  · cases h

theorem eq_of_continuation_zero {low high : UInt8} {bits found : Nat} {bytes rest : Bytes}
    (h : continuation 0 low high bits bytes = (some found, rest)) : found = bits ∧ bytes = rest := by
  rw [continuation] at h
  obtain ⟨hfound, hrest⟩ := Prod.mk.inj h
  exact ⟨(Option.some.inj hfound).symm, hrest⟩

/-- A continuation byte that was read is there, and in its range. -/
theorem exists_of_continuation {count : Nat} {low high : UInt8} {bits found : Nat} {bytes rest : Bytes}
    (h : continuation (count + 1) low high bits bytes = (some found, rest)) : ∃ b tail,
      bytes = b :: tail ∧ low.toNat ≤ b.toNat ∧ b.toNat ≤ high.toNat ∧
        continuation count 0x80 0xBF (bits * 64 + (b.toNat - 0x80)) tail = (some found, rest) := by
  cases bytes with
  | nil => simp [continuation] at h
  | cons b tail =>
    rw [continuation] at h
    split at h
    · rename_i hb
      exact ⟨b, tail, rfl, UInt8.le_iff_toNat_le.mp hb.1, UInt8.le_iff_toNat_le.mp hb.2, h⟩
    · cases h

/-! ## One character -/

theorem encodeChar_two {b x : UInt8} {c : Char} (hb : 0xC2 ≤ b.toNat ∧ b.toNat < 0xE0)
    (hx : 0x80 ≤ x.toNat ∧ x.toNat ≤ 0xBF)
    (hc : c.val.toNat = (b.toNat - 0xC0) * 64 + (x.toNat - 0x80)) :
    String.utf8EncodeChar c = [b, x] := by
  -- the number is too large for one byte
  rw [String.utf8EncodeChar, if_neg (by omega), if_pos (by omega)]
  simp only [List.cons.injEq, UInt8.ofNat_eq_iff_mod_eq_toNat, and_true]
  omega

theorem encodeChar_three {b x y : UInt8} {c : Char} (hb : 0xE0 ≤ b.toNat ∧ b.toNat < 0xF0)
    (hx : 0x80 ≤ x.toNat ∧ x.toNat ≤ 0xBF) (hy : 0x80 ≤ y.toNat ∧ y.toNat ≤ 0xBF)
    (hshort : b.toNat = 0xE0 → 0xA0 ≤ x.toNat)
    (hc : c.val.toNat = ((b.toNat - 0xE0) * 64 + (x.toNat - 0x80)) * 64 + (y.toNat - 0x80)) :
    String.utf8EncodeChar c = [b, x, y] := by
  -- behind E0, only the narrower range makes it too large for two bytes
  rw [String.utf8EncodeChar, if_neg (by omega), if_neg (by omega), if_pos (by omega)]
  simp only [List.cons.injEq, UInt8.ofNat_eq_iff_mod_eq_toNat, and_true]
  omega

theorem encodeChar_four {b x y z : UInt8} {c : Char} (hb : 0xF0 ≤ b.toNat ∧ b.toNat < 0xF5)
    (hx : 0x80 ≤ x.toNat ∧ x.toNat ≤ 0xBF) (hy : 0x80 ≤ y.toNat ∧ y.toNat ≤ 0xBF)
    (hz : 0x80 ≤ z.toNat ∧ z.toNat ≤ 0xBF) (hshort : b.toNat = 0xF0 → 0x90 ≤ x.toNat)
    (hc : c.val.toNat = (((b.toNat - 0xF0) * 64 + (x.toNat - 0x80)) * 64 + (y.toNat - 0x80)) * 64 +
      (z.toNat - 0x80)) : String.utf8EncodeChar c = [b, x, y, z] := by
  -- behind F0, only the narrower range makes it too large for three bytes
  rw [String.utf8EncodeChar, if_neg (by omega), if_neg (by omega), if_neg (by omega)]
  simp only [List.cons.injEq, UInt8.ofNat_eq_iff_mod_eq_toNat, and_true]
  omega

/-- A unit that is a character is the encoding of that character. -/
theorem eq_append_of_unit {b : UInt8} {bytes rest : Bytes} {c : Char}
    (h : unit b bytes = (some c, rest)) : b :: bytes = String.utf8EncodeChar c ++ rest := by
  unfold unit at h
  split at h
  · cases h
  rename_i count low high bits hlead
  obtain ⟨found, hfound, rfl⟩ : ∃ found, continuation count low high bits bytes = (some found, rest) ∧
      Char.ofNat found = c := by
    rcases hread : continuation count low high bits bytes with ⟨_ | found, tail⟩ <;>
      rw [hread] at h <;> cases h
    exact ⟨found, rfl, rfl⟩
  have hnumber (hvalid : found.isValidChar) : (Char.ofNat found).val.toNat = found :=
    toNat_ofNat hvalid
  have hfirst : (0x80 : UInt8).toNat = 0x80 := rfl
  have hlast : (0xBF : UInt8).toNat = 0xBF := rfl
  -- the ranges leave out the surrogates and the numbers that are too large
  rcases lead?_cases hlead with ⟨hcount, hb, hbits⟩ | ⟨hlow, hhigh,
    ⟨hcount, hge, hlt, hbits⟩ | ⟨hcount, hge, hlt, hbits, hshort, hsurrogate⟩ |
      ⟨hcount, hge, hlt, hbits, hshort, hlarge⟩⟩ <;> subst hcount
  · obtain ⟨hfound, hrest⟩ := eq_of_continuation_zero hfound
    have hchar := hnumber (.inl (by omega))
    rw [Char.toNat_val] at hchar
    rw [Ascii.encodeChar_of_lt (by omega), hchar, hfound, hbits, UInt8.ofNat_toNat, hrest]
    rfl
  · obtain ⟨x, _, hbytes, hx, hx', hfound⟩ := exists_of_continuation hfound
    obtain ⟨hfound, hrest⟩ := eq_of_continuation_zero hfound
    have hchar := hnumber (.inl (by omega))
    have hencode : String.utf8EncodeChar (Char.ofNat found) = [b, x] :=
      encodeChar_two ⟨hge, hlt⟩ ⟨by omega, by omega⟩ (by omega)
    rw [hencode, hbytes, hrest]
    rfl
  · obtain ⟨x, _, hbytes, hx, hx', hfound⟩ := exists_of_continuation hfound
    obtain ⟨y, _, hbytes', hy, hy', hfound⟩ := exists_of_continuation hfound
    obtain ⟨hfound, hrest⟩ := eq_of_continuation_zero hfound
    have hvalid : found.isValidChar := by
      unfold Nat.isValidChar
      omega
    have hchar := hnumber hvalid
    have hencode : String.utf8EncodeChar (Char.ofNat found) = [b, x, y] :=
      encodeChar_three ⟨hge, hlt⟩ ⟨by omega, by omega⟩ ⟨hy, hy'⟩ (by omega) (by omega)
    rw [hencode, hbytes, hbytes', hrest]
    rfl
  · obtain ⟨x, _, hbytes, hx, hx', hfound⟩ := exists_of_continuation hfound
    obtain ⟨y, _, hbytes', hy, hy', hfound⟩ := exists_of_continuation hfound
    obtain ⟨z, _, hbytes'', hz, hz', hfound⟩ := exists_of_continuation hfound
    obtain ⟨hfound, hrest⟩ := eq_of_continuation_zero hfound
    have hchar := hnumber (.inr (by omega))
    have hencode : String.utf8EncodeChar (Char.ofNat found) = [b, x, y, z] :=
      encodeChar_four ⟨hge, hlt⟩ ⟨by omega, by omega⟩ ⟨hy, hy'⟩ ⟨hz, hz'⟩ (by omega) (by omega)
    rw [hencode, hbytes, hbytes', hbytes'', hrest]
    rfl

/-- What decodes to a text is the encoding of that text. -/
theorem eq_encode_of_decode? {bytes : Bytes} {text : List Char} (h : decode? bytes = some text) :
    bytes = encode text := by
  unfold decode? at h
  fun_induction units bytes generalizing text with
  | case1 =>
    cases h
    rfl
  | case2 b rest ih =>
    rw [List.mapM_cons] at h
    simp only [id, Option.bind_eq_bind, Option.bind_eq_some_iff] at h
    obtain ⟨c, hc, more, hmore, htext⟩ := h
    cases htext
    have hunit : unit b rest = (some c, (unit b rest).2) := by rw [← hc]
    rw [eq_append_of_unit hunit, ih hmore]
    rfl

end BarrierStore.Utf8
