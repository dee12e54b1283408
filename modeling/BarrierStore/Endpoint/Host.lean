import BarrierStore.Bytes
import BarrierStore.Text.Decimal
import BarrierStore.Text.Numeral

/-!
# Hosts

A host is an internet address of 32 bits, or one of eight groups of 16 bits.

The module introduces:

* `Host` — either kind of address;
* `Host.parse?` — a host by its text: one to four numbers with dots between them; groups in
  hexadecimal with colons between them, where two colons stand for as many zeros as are missing;
  or the machine's own name;
* `Host.isUnspecified`, `Host.isMapped` — groups that mean any address of the machine, and groups
  that stand for an address of 32 bits.
-/

namespace BarrierStore

/-- An internet address. -/
inductive Host where
  /-- An address of 32 bits. -/
  | short (address : Nat)
  /-- An address of eight groups of 16 bits. -/
  | long (groups : List Nat)
  deriving DecidableEq

namespace Host

/-! ## Numbers with dots between them -/

/-- One number of an address: hexadecimal behind `0x`, octal behind another zero, else decimal. -/
def part? : (text : List Char) → Option Nat
  | '0' :: 'x' :: digits | '0' :: 'X' :: digits => Numeral.parse? 16 UInt32.size digits
  | '0' :: digits => Numeral.parse? 8 UInt32.size ('0' :: digits)
  | digits => Numeral.parse? 10 UInt32.size digits

/-- The address of one to four parts, in front of which `value` was read from `before` parts. Each
part is a byte, but the last one fills all the bytes that are left. -/
def join? : (before value : Nat) → (parts : List Nat) → Option Nat
  | _, _, [] => none
  | before, value, [last] =>
    let room := Bytes.count (4 - before)
    if before < 4 ∧ last < room then some (value * room + last) else none
  | before, value, part :: rest =>
    if part < 256 then join? (before + 1) (value * 256 + part) rest else none

/-- The address of 32 bits that a text spells. -/
def short? (text : List Char) : Option Nat := do
  join? 0 0 (← (text.splitOn '.').mapM part?)

/-! ## Groups with colons between them -/

/-- A group: up to four hexadecimal digits. -/
def group? (text : List Char) : Option Nat :=
  if text.length ≤ 4 then Numeral.parse? 16 UInt16.size text else none

/-- A byte in decimal, without a zero in front. -/
def octet? (text : List Char) : Option Nat := do
  let n ← Numeral.parse? 10 UInt8.size text
  if text = Decimal.digits n then some n else none

/-- The two groups of four bytes in decimal, with dots between them. -/
def quad? (text : List Char) : Option (List Nat) := do
  match ← (text.splitOn '.').mapM octet? with
  | [a, b, c, d] => return [a * 256 + b, c * 256 + d]
  | _ => none

/-- The groups of these texts. Four bytes may stand for the last two groups. -/
def groups? : (texts : List (List Char)) → Option (List Nat)
  | [] => some []
  | [last] => if '.' ∈ last then quad? last else (fun group => [group]) <$> group? last
  | text :: rest => do return (← group? text) :: (← groups? rest)

/-- The groups of a run of text; no text has none. -/
def run? (text : List Char) : Option (List Nat) :=
  if text = [] then some [] else groups? (text.splitOn ':')

/-- What stands around the first two colons in a row. -/
def splitGap? : (text : List Char) → Option (List Char × List Char)
  | [] => none
  | ':' :: ':' :: after => some ([], after)
  | c :: rest => (fun (before, after) => (c :: before, after)) <$> splitGap? rest

/-- The eight groups that a text spells. -/
def long? (text : List Char) : Option (List Nat) :=
  match splitGap? text with
  | none => do
    let groups ← run? text
    if groups.length = 8 then some groups else none
  | some (before, after) => do
    -- four bytes stand at the very end or nowhere
    if '.' ∈ before then none
    let front ← run? before
    let back ← run? after
    -- the gap stands for one group at least
    if front.length + back.length < 8 then
      some (front ++ List.replicate (8 - front.length - back.length) 0 ++ back)
    else none

/-- Eight groups with the number of an interface behind a percent sign, or without one. -/
def scoped? (text : List Char) : Option (List Nat) :=
  match text.dropWhile (· ≠ '%') with
  | [] => long? text
  | _ :: interface => do
    let _ ← Numeral.parse? 10 UInt32.size interface
    long? (text.takeWhile (· ≠ '%'))

/-! ## Hosts by their text -/

/-- The machine's own name. -/
def ownName : List Char := "localhost".toList

/-- The address that goes with the machine's own name. -/
def loopback : Host := short 0x7F000001

/-- The host that a text names. Case does not count in a name. -/
def parse? (text : List Char) : Option Host :=
  if text.map Char.toLower = ownName then some loopback
  else (short <$> short? text) <|> (long <$> scoped? text)

/-- Whether a host is the one of all zero groups, which means any address of the machine. -/
def isUnspecified : Host → Bool
  | short _ => false
  | long groups => groups.all (· = 0)

/-- Whether the groups of a host stand for an address of 32 bits. -/
def isMapped : Host → Bool
  | short _ => false
  | long groups => groups.take 6 = [0, 0, 0, 0, 0, 0xFFFF]

end Host

end BarrierStore
