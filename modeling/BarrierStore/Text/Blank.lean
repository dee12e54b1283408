/-!
# Blank characters

Counters stand in files between blanks of any kind.

The module introduces `Blank.isBlank`, the Unicode property `White_Space`, `Blank.fields text`,
the pieces of a text between blanks, and `Blank.trim text`, the text without the blanks at its
ends.
-/

namespace BarrierStore.Blank

/-- The characters with the Unicode property `White_Space`: the tab and line controls, the space,
the next-line control, and the spaces and separators of other blocks. -/
def isBlank (c : Char) : Bool :=
  (0x09 ≤ c.toNat && c.toNat ≤ 0x0D) || c.toNat == 0x20 || c.toNat == 0x85 || c.toNat == 0xA0
    || c.toNat == 0x1680 || (0x2000 ≤ c.toNat && c.toNat ≤ 0x200A) || c.toNat == 0x2028
    || c.toNat == 0x2029 || c.toNat == 0x202F || c.toNat == 0x205F || c.toNat == 0x3000

/-- The pieces of `text` between blanks, in order; none is empty. -/
def fields (text : List Char) : List (List Char) :=
  (text.splitOnP isBlank).filter (· ≠ [])

/-- The text without the blanks at both ends. -/
def trim (text : List Char) : List Char :=
  ((text.dropWhile isBlank).reverse.dropWhile isBlank).reverse

end BarrierStore.Blank
