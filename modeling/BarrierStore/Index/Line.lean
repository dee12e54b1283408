import BarrierStore.Text.Ascii
import BarrierStore.Text.Decimal
import BarrierStore.Text.Hex
import Std.Data.ExtTreeMap

/-!
# The index log as text

An index log is a text of lines. Each line binds a key, in hexadecimal, to an address, in decimal,
with one space between them; a later line of the same key outdates an earlier one.

The module introduces:

* `AddressMap` — keys and their addresses;
* `Line.encode`, `Line.parse?` — a binding as a line, newline included, and back, newline excluded;
* `IndexLog.lines`, `IndexLog.pieces` — the lines of a file that end in a newline; the file cut
  behind each newline;
* `IndexLog.entries` — the bindings of the longest run of well-formed lines at the start; what
  follows a malformed or unterminated line does not count;
* `IndexLog.replay` — the map that a file amounts to;
* `IndexLog.compact` — the shortest file that amounts to a map.

Every line reads back as its binding (`Line.parse?_encode_text`).
-/

namespace BarrierStore

/-- Keys and their addresses. -/
abbrev AddressMap := Std.ExtTreeMap Bytes UInt64

namespace AddressMap

/-- The map of these bindings; later ones outdate earlier ones. -/
def ofEntries (entries : List (Bytes × UInt64)) : AddressMap :=
  entries.foldl (fun map (key, address) => map.insert key address) ∅

end AddressMap

namespace Line

/-- The byte that ends a line. -/
def newline : UInt8 := 10

/-- A binding as text: the key in hexadecimal, a space, the address in decimal. -/
def text (key : Bytes) (address : UInt64) : List Char :=
  Hex.digits key ++ ' ' :: Decimal.digits address.toNat

/-- A binding as a line of the file, with its newline. -/
def encode (key : Bytes) (address : UInt64) : Bytes :=
  Utf8.encode (text key address) ++ [newline]

/-- The text in front of the first space and the text behind it. -/
def splitAtSpace? (text : List Char) : Option (List Char × List Char) :=
  match text.dropWhile (· ≠ ' ') with
  | [] => none
  | _ :: rest => some (text.takeWhile (· ≠ ' '), rest)

/-- The binding on a line, which comes without its newline. -/
def parse? (line : Bytes) : Option (Bytes × UInt64) := do
  let (key, address) ← splitAtSpace? (Ascii.chars line)
  return (← Hex.parse? key, ← Decimal.parse? address)

/-- A binding as text is ASCII. -/
theorem lt_of_mem_text {key : Bytes} {address : UInt64} {c : Char} (h : c ∈ text key address) :
    c.toNat < 128 := by
  rcases List.mem_append.mp h with h | h
  · exact Hex.lt_of_mem_digits h
  · rcases List.mem_cons.mp h with rfl | h
    · decide
    · exact Decimal.lt_of_isDigit (Decimal.isDigit_of_mem_digits h)

/-- A text is cut at its first space. -/
theorem splitAtSpace?_append {front : List Char} (h : ∀ c ∈ front, c ≠ ' ') (back : List Char) :
    splitAtSpace? (front ++ ' ' :: back) = some (front, back) := by
  have all : ∀ c ∈ front, decide (c ≠ ' ') = true := fun c hc => decide_eq_true (h c hc)
  rw [splitAtSpace?, List.dropWhile_append_of_pos all, List.takeWhile_append_of_pos all]
  simp

/-- Every line reads back as its binding. -/
theorem parse?_encode_text (key : Bytes) (address : UInt64) :
    parse? (Utf8.encode (text key address)) = some (key, address) := by
  rw [parse?, Ascii.chars_encode fun _ => lt_of_mem_text, text,
    splitAtSpace?_append fun _ => Hex.ne_space_of_mem_digits]
  simp [Hex.parse?_digits, Decimal.parse?_digits]

end Line

namespace IndexLog

/-- The lines of a file that end in a newline, without it. -/
def lines (contents : Bytes) : List Bytes :=
  (contents.splitOn Line.newline).dropLast

/-- The file cut behind each newline; the last piece may lack one. -/
def pieces (contents : Bytes) : List Bytes :=
  let cut := contents.splitOn Line.newline
  cut.dropLast.map (· ++ [Line.newline]) ++ cut.getLast?.toList.filter (· ≠ [])

/-- The bindings of the well-formed lines in front of the first that is not. -/
def entriesOfLines : (lines : List Bytes) → List (Bytes × UInt64)
  | [] => []
  | line :: rest =>
    match Line.parse? line with
    | none => []
    | some entry => entry :: entriesOfLines rest

/-- The bindings that a file holds. -/
def entries (contents : Bytes) : List (Bytes × UInt64) :=
  entriesOfLines (lines contents)

/-- The map that a file amounts to. -/
def replay (contents : Bytes) : AddressMap :=
  AddressMap.ofEntries (entries contents)

/-- One line for each of these bindings. -/
def encodeEntries (entries : List (Bytes × UInt64)) : Bytes :=
  entries.flatMap fun (key, address) => Line.encode key address

/-- One line for each key of a map. -/
def compact (map : AddressMap) : Bytes :=
  encodeEntries map.toList

end IndexLog

end BarrierStore
