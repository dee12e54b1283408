import BarrierStore.Proofs.Index.Replay
import BarrierStore.Proofs.Text.Digits
import BarrierStore.Proofs.Text.Spelling
import BarrierStore.Proofs.Text.Utf8
import Mathlib.Data.List.TakeWhile

/-!
# What a line of the index log spells

A line binds a key to an address exactly if it is spelled as a line: hexadecimal digits for the key,
one space, decimal digits for the address. A line that is written is one of these, the shortest, in
lower case, and the newline behind it is the only one in it.

The bytes of a line are read one by one as characters. To read a line as UTF-8 first, and not at all if
it is none, comes to the same, because all that is spelled is ASCII.

The module introduces:

* `Line.Spells line key address` — the bytes of `line` spell this binding;
* `Line.ofText? text` — the binding in a text.

Main statement: `Line.parse?_iff_spells`. On texts it is `Line.ofText?_eq_some_iff`.
-/

namespace BarrierStore.Line

/-- The line is the digits of the key, a space, and digits of the address, perhaps behind a plus sign.
The address is a word, so digits with a greater value spell none. -/
def Spells (line key : Bytes) (address : UInt64) : Prop :=
  ∃ front back, line = Utf8.encode (front ++ ' ' :: back) ∧ Hex.Spells front key ∧
    Decimal.Spells back address.toNat

/-- The binding in a text. -/
def ofText? (text : List Char) : Option (Bytes × UInt64) := do
  let (key, address) ← splitAtSpace? text
  return (← Hex.parse? key, ← Decimal.parse? address)

theorem parse?_eq_ofText? (line : Bytes) : parse? line = ofText? (Ascii.chars line) := rfl

/-- A text is cut where its first space is, and only there. -/
theorem splitAtSpace?_eq_some_iff {text front back : List Char} :
    splitAtSpace? text = some (front, back) ↔ text = front ++ ' ' :: back ∧ ∀ c ∈ front, c ≠ ' ' := by
  constructor
  · intro h
    by_cases hspace : ' ' ∈ text
    · obtain ⟨first, rest, rfl, hfirst⟩ := List.eq_append_cons_of_mem hspace
      have hother : ∀ c ∈ first, c ≠ ' ' := fun c hc heq => hfirst (heq ▸ hc)
      rw [splitAtSpace?_append hother] at h
      cases h
      exact ⟨rfl, hother⟩
    · have hnone : text.dropWhile (· ≠ ' ') = [] :=
        List.dropWhile_eq_nil_iff.mpr fun c hc => decide_eq_true fun heq => hspace (heq ▸ hc)
      rw [splitAtSpace?, hnone] at h
      cases h
  · rintro ⟨rfl, hother⟩
    exact splitAtSpace?_append hother back

/-- A text holds a binding exactly if it is the digits of the key, a space, and digits of the
address. -/
theorem ofText?_eq_some_iff {text : List Char} {key : Bytes} {address : UInt64} :
    ofText? text = some (key, address) ↔ ∃ front back, text = front ++ ' ' :: back ∧
      Hex.Spells front key ∧ Decimal.Spells back address.toNat := by
  simp only [ofText?, Option.bind_eq_bind, Option.bind_eq_some_iff, Option.pure_def,
    Option.some.injEq, Prod.mk.injEq]
  constructor
  · rintro ⟨⟨front, back⟩, hsplit, found, hfound, word, hword, rfl, rfl⟩
    exact ⟨front, back, (splitAtSpace?_eq_some_iff.mp hsplit).1, Hex.parse?_eq_some_iff.mp hfound,
      Decimal.parse?_eq_some_iff.mp hword⟩
  · rintro ⟨front, back, rfl, hkey, haddress⟩
    -- no digit is a space, so the space is the first one
    exact ⟨(front, back), splitAtSpace?_append (fun c hc => (hkey.lt_and_ne c hc).2) back, key,
      Hex.parse?_eq_some_iff.mpr hkey, address, Decimal.parse?_eq_some_iff.mpr haddress, rfl, rfl⟩

/-- A text that holds a binding is ASCII. -/
theorem lt_of_ofText? {text : List Char} {entry : Bytes × UInt64} (h : ofText? text = some entry) :
    ∀ c ∈ text, c.toNat < 128 := by
  obtain ⟨front, back, rfl, hkey, haddress⟩ := ofText?_eq_some_iff.mp h
  intro c hc
  rcases List.mem_append.mp hc with hfront | hrest
  · exact (hkey.lt_and_ne c hfront).1
  · rcases List.mem_cons.mp hrest with rfl | hback
    · decide
    · exact haddress.lt c hback

/-- A line is read exactly if it is the encoding of a text that holds the binding. -/
theorem parse?_eq_some_iff {line : Bytes} {entry : Bytes × UInt64} :
    parse? line = some entry ↔ ∃ text, line = Utf8.encode text ∧ ofText? text = some entry := by
  rw [parse?_eq_ofText?]
  constructor
  · intro h
    exact ⟨Ascii.chars line, (Ascii.encode_chars (lt_of_ofText? h)).symm, h⟩
  · rintro ⟨text, rfl, htext⟩
    rwa [Ascii.chars_encode (lt_of_ofText? htext)]

/-- To read a line as UTF-8 first comes to the same. -/
theorem parse?_eq_bind_decode? (line : Bytes) : parse? line = (Utf8.decode? line).bind ofText? := by
  refine Option.ext fun entry => ?_
  rw [parse?_eq_some_iff, Option.bind_eq_some_iff]
  constructor
  · rintro ⟨text, rfl, htext⟩
    exact ⟨text, Utf8.decode?_encode (lt_of_ofText? htext), htext⟩
  · rintro ⟨text, hdecode, htext⟩
    exact ⟨text, Utf8.eq_encode_of_decode? hdecode, htext⟩

/-- A line gives a binding exactly if it spells it, whatever bytes it holds, and it makes no difference
whether it is read as UTF-8 first. The line that is written for a binding gives that binding back, and
holds no newline but the one behind it. -/
theorem parse?_iff_spells :
    (∀ (line key : Bytes) (address : UInt64),
      parse? line = some (key, address) ↔ Spells line key address) ∧
    (∀ line : Bytes, parse? line = (Utf8.decode? line).bind ofText?) ∧
    ∀ (key : Bytes) (address : UInt64), ∃ line, encode key address = line ++ [newline] ∧
      newline ∉ line ∧ parse? line = some (key, address) := by
  refine ⟨fun line key address => ?_, parse?_eq_bind_decode?, fun key address => ?_⟩
  · rw [parse?_eq_some_iff]
    constructor
    · rintro ⟨text, hline, htext⟩
      obtain ⟨front, back, rfl, hkey, haddress⟩ := ofText?_eq_some_iff.mp htext
      exact ⟨front, back, hline, hkey, haddress⟩
    · rintro ⟨front, back, hline, hkey, haddress⟩
      exact ⟨_, hline, ofText?_eq_some_iff.mpr ⟨front, back, rfl, hkey, haddress⟩⟩
  · exact ⟨Utf8.encode (text key address), rfl, newline_not_mem_encode_text key address,
      parse?_encode_text key address⟩

/-- Digits in upper case, a sign and leading zeros are accepted. -/
example : parse? (Utf8.encode ['6', 'B', ' ', '+', '0', '7']) = some ([0x6B], 7) := by decide

end BarrierStore.Line
