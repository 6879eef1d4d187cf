/-! Character classes as tables of code point ranges. A class of the Unicode standard is data;
these tables hold it, and membership is the only operation on them. -/
namespace CypherAssist.Text

/-- Ranges of code points in ascending order, both ends included. -/
abbrev RangeTable := List (Nat × Nat)

/-- A character belongs to a table when one of its ranges covers the code point. -/
def RangeTable.holds (table : RangeTable) (c : Char) : Bool :=
  table.any fun range => range.1 ≤ c.toNat && c.toNat ≤ range.2

end CypherAssist.Text
