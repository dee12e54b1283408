import BarrierStore.Text.Utf8

/-!
# ASCII text

Logs and counters are written in ASCII, one byte for each character.

The module introduces `Ascii.chars bytes`, the characters numbered by `bytes`. A byte of 128 or
more becomes a character outside ASCII, which no number and no key accepts, so a field may be
read through `Ascii.chars` without a look at the encoding of the whole. On ASCII text
`Ascii.chars` and `Utf8.encode` undo each other (`chars_encode`, `encode_chars`).
-/

namespace BarrierStore.Ascii

/-- The character numbered by a byte. -/
def char (b : UInt8) : Char :=
  Char.ofNat b.toNat

/-- The characters numbered by `bytes`. -/
def chars (bytes : Bytes) : List Char :=
  bytes.map char

/-- A byte below 256 is a valid character number, so nothing is lost. -/
@[simp]
theorem toNat_char (b : UInt8) : (char b).toNat = b.toNat := by
  have hb : b.toNat < 256 := b.toNat_lt
  exact Utf8.toNat_ofNat (Or.inl (by omega))

/-- An ASCII character is written as the one byte of its number. -/
theorem encodeChar_of_lt {c : Char} (h : c.toNat < 128) :
    String.utf8EncodeChar c = [UInt8.ofNat c.toNat] := by
  have : ¬ 127 < c.toNat := by omega
  simp [String.utf8EncodeChar, this]

theorem encode_cons_of_lt {c : Char} (h : c.toNat < 128) (rest : List Char) :
    Utf8.encode (c :: rest) = UInt8.ofNat c.toNat :: Utf8.encode rest := by
  simp [Utf8.encode, encodeChar_of_lt h]

/-- ASCII text is read back from its bytes. -/
theorem chars_encode {text : List Char} (h : ∀ c ∈ text, c.toNat < 128) :
    chars (Utf8.encode text) = text := by
  induction text with
  | nil => rfl
  | cons c rest ih =>
    have hc := h c List.mem_cons_self
    rw [encode_cons_of_lt hc, chars, List.map_cons]
    congr 1
    · apply Char.toNat_inj.mp
      rw [toNat_char, UInt8.toNat_ofNat']
      omega
    · exact ih fun d hd => h d (List.mem_cons_of_mem _ hd)

/-- Bytes below 128 are the encoding of the text they number. -/
theorem encode_chars {bytes : Bytes} (h : ∀ c ∈ chars bytes, c.toNat < 128) :
    Utf8.encode (chars bytes) = bytes := by
  induction bytes with
  | nil => rfl
  | cons b rest ih =>
    have hb : (char b).toNat < 128 := h _ (by simp [chars])
    have ih := ih fun c hc => h c (by simp only [chars, List.map_cons]; exact List.mem_cons_of_mem _ hc)
    rw [chars, List.map_cons, encode_cons_of_lt hb, toNat_char]
    rw [chars] at ih
    simp [ih]

end BarrierStore.Ascii
