import CypherAssist.Text.Range

/-! Blank characters: the characters with the Unicode white-space or separator property, together
with the four information separators. Zero-width spaces and the byte order mark are not blank. -/
namespace CypherAssist.Text

/-- The blank characters beyond ASCII. -/
def blankTable : RangeTable :=
  [(0x85, 0x85), (0xa0, 0xa0), (0x1680, 0x1680), (0x2000, 0x200a), (0x2028, 0x2029),
   (0x202f, 0x202f), (0x205f, 0x205f), (0x3000, 0x3000)]

/-- In ASCII the blanks are tab to carriage return, the information separators and the space. -/
def isBlank (c : Char) : Bool :=
  if c.toNat < 128 then
    (9 ≤ c.toNat && c.toNat ≤ 13) || (28 ≤ c.toNat && c.toNat ≤ 32)
  else blankTable.holds c

end CypherAssist.Text
