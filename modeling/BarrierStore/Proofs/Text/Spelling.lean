import BarrierStore.Text.Ascii
import BarrierStore.Text.Blank
import BarrierStore.Text.Decimal
import Mathlib.Data.Nat.Digits.Defs

/-!
# Numbers as they are spelled

A spelled number is one word of ASCII digits. So it is found between blanks, makes no difference to
how a path is cut, and is no shorter for a greater number.

Main statements: `Decimal.ne_of_mem_digits` and `Decimal.length_digits_le` on the digits;
`Utf8.decode?_encode` on ASCII text; `Blank.fields_append_cons` and `Blank.trim_concat` on words
between blanks.
-/

namespace BarrierStore

namespace Decimal

/-- No character other than a digit is in a spelling. -/
theorem ne_of_mem_digits {n : Nat} {c d : Char} (hc : c ∈ digits n) (hd : d.isDigit = false) :
    c ≠ d := by
  rintro rfl
  rw [isDigit_of_mem_digits hc] at hd
  cases hd

theorem not_mem_digits {c : Char} (hc : c.isDigit = false) (n : Nat) : c ∉ digits n :=
  fun hmem => ne_of_mem_digits hmem hc rfl

/-- Different words have different digits. -/
theorem digits_injective {m n : UInt64} (h : digits m.toNat = digits n.toNat) : m = n := by
  have := congrArg parse? h
  rw [parse?_digits, parse?_digits] at this
  exact Option.some.inj this

/-- A greater number has no fewer digits. -/
theorem length_digits_mono {m n : Nat} (h : m ≤ n) : (digits m).length ≤ (digits n).length := by
  induction n using Nat.strongRecOn generalizing m with
  | ind n ih =>
    have hlarge : ∀ k, 10 ≤ k → (digits k).length = (digits (k / 10)).length + 1 := by
      intro k hk
      have hlast := Nat.mod_lt k (show 0 < 10 by decide)
      have hwhole := Nat.toDigits_append_toDigits (b := 10) (by decide)
        (show 0 < k / 10 by omega) hlast
      rw [Nat.div_add_mod] at hwhole
      rw [digits, ← hwhole, List.length_append, Nat.toDigits_of_lt_base hlast, digits]
      rfl
    -- both numbers lose their last digits
    rcases Nat.lt_or_ge m 10 with hm | hm
    · rw [digits, Nat.toDigits_of_lt_base hm]
      exact List.length_pos_iff.mpr (digits_ne_nil n)
    · rw [hlarge m hm, hlarge n (by omega)]
      have := ih (n / 10) (by omega) (Nat.div_le_div_right h)
      omega

/-- A word has at most twenty digits. -/
theorem length_digits_le (w : UInt64) : (digits w.toNat).length ≤ 20 := by
  refine Nat.toDigits_length 10 w.toNat 20 (by decide) ?_
  have := w.toNat_lt
  omega

end Decimal

namespace Utf8

/-- Texts are encoded one behind the other. -/
theorem encode_append (front back : List Char) : encode (front ++ back) = encode front ++ encode back :=
  List.flatMap_append

/-- ASCII text takes a byte for each character. -/
theorem length_encode {text : List Char} (h : ∀ c ∈ text, c.toNat < 128) :
    (encode text).length = text.length := by
  conv_rhs => rw [← Ascii.chars_encode h, Ascii.chars, List.length_map]

/-- ASCII text is read back from its bytes. -/
theorem decode?_encode {text : List Char} (h : ∀ c ∈ text, c.toNat < 128) :
    decode? (encode text) = some text := by
  have hbytes : ∀ b ∈ encode text, b < 0x80 := by
    intro b hb
    have hchar : Ascii.char b ∈ text := by
      rw [← Ascii.chars_encode h]
      exact List.mem_map_of_mem hb
    have := h _ hchar
    rw [Ascii.toNat_char] at this
    exact UInt8.lt_iff_toNat_lt.mpr this
  rw [decode?_ascii hbytes]
  exact congrArg some (Ascii.chars_encode h)

/-- Nothing is replaced in what is UTF-8 throughout. -/
theorem decodeLossy_of_decode? {bytes : Bytes} {text : List Char} (h : decode? bytes = some text) :
    decodeLossy bytes = text := by
  -- if all units are characters, none is replaced
  have hunits : ∀ (found : List (Option Char)) {chars : List Char}, found.mapM id = some chars →
      found.map (·.getD '\ufffd') = chars := by
    intro found
    induction found with
    | nil =>
      intro chars hchars
      cases hchars
      rfl
    | cons unit rest ih =>
      intro chars hchars
      rw [List.mapM_cons] at hchars
      rcases unit with _ | c
      · cases hchars
      · rcases hrest : rest.mapM id with _ | more <;> rw [hrest] at hchars <;> cases hchars
        rw [List.map_cons, ih hrest]
        rfl
  exact hunits (units bytes) h

/-- A shorter part of a text takes no more bytes. -/
theorem length_encode_sublist {text more : List Char} (h : text.Sublist more) :
    (encode text).length ≤ (encode more).length := by
  induction h with
  | slnil => exact Nat.le_refl _
  | cons c _ ih =>
    refine Nat.le_trans ih ?_
    simp [encode]
  | cons_cons c _ ih =>
    simpa [encode] using ih

end Utf8

namespace Blank

theorem isBlank_newline : isBlank '\n' = true := by decide

/-- No digit is blank. -/
theorem isBlank_digit {n : Nat} {c : Char} (h : c ∈ Decimal.digits n) : isBlank c = false := by
  have hdigit := Decimal.isDigit_of_mem_digits h
  simp only [Char.isDigit, Bool.and_eq_true, decide_eq_true_eq] at hdigit
  have low : 48 ≤ c.toNat := UInt32.le_iff_toNat_le.mp hdigit.1
  have high : c.toNat ≤ 57 := UInt32.le_iff_toNat_le.mp hdigit.2
  simp only [isBlank, Bool.or_eq_false_iff, Bool.and_eq_false_iff, decide_eq_false_iff_not,
    beq_eq_false_iff_ne]
  omega

/-- A word in front of a blank is the first field. -/
theorem fields_append_cons {word : List Char} (hword : ∀ c ∈ word, isBlank c = false)
    (hne : word ≠ []) {blank : Char} (hblank : isBlank blank = true) (rest : List Char) :
    fields (word ++ blank :: rest) = word :: fields rest := by
  rw [fields, fields, List.splitOnP_append_cons_of_forall_mem hword blank hblank]
  simp [hne]

@[simp]
theorem fields_nil : fields [] = [] := by
  simp [fields]

/-- A word with a blank behind it is that word. -/
theorem trim_concat {word : List Char} (hword : ∀ c ∈ word, isBlank c = false) (hne : word ≠ [])
    {blank : Char} (hblank : isBlank blank = true) : trim (word ++ [blank]) = word := by
  obtain ⟨first, rest, rfl⟩ := List.exists_cons_of_ne_nil hne
  have hfirst : isBlank first = false := hword first List.mem_cons_self
  obtain ⟨last, front, hlast⟩ := List.exists_cons_of_ne_nil (l := (first :: rest).reverse) (by simp)
  have hlast' : isBlank last = false :=
    hword last (List.mem_reverse.mp (hlast ▸ List.mem_cons_self))
  rw [trim, List.cons_append, List.dropWhile_cons_of_neg (by simp [hfirst]), ← List.cons_append,
    List.reverse_append, List.reverse_singleton, List.singleton_append,
    List.dropWhile_cons_of_pos hblank, hlast, List.dropWhile_cons_of_neg (by simp [hlast']), ← hlast,
    List.reverse_reverse]

end Blank

end BarrierStore
