/-! Wide text. An escape can name one half of a surrogate pair, which is no character by itself; a
wide text holds such halves next to characters. Two halves that stand side by side are not joined,
so a pair of them is another text than the character that it stands for elsewhere. -/
namespace CypherAssist.Text

/-- A unit of wide text: a character, or a surrogate by its place among the surrogates. -/
inductive Point where
  | char (c : Char)
  | surrogate (place : Fin 0x800)
  deriving DecidableEq, Repr

namespace Point

/-- The code of a point. -/
def code : Point → Nat
  | .char c => c.toNat
  | .surrogate place => 0xd800 + place.val

/-- The point with a code; there is none beyond the last character. -/
def ofCode? (code : Nat) : Option Point :=
  if h : code.isValidChar then some (.char (Char.ofNatAux code h))
  else if h : 0xd800 ≤ code ∧ code < 0xe000 then some (.surrogate ⟨code - 0xd800, by omega⟩)
  else none

/-- Whether a point is one half of a surrogate pair. -/
def isSurrogate : Point → Bool
  | .char _ => false
  | .surrogate _ => true

end Point

/-- A text of characters and surrogates. -/
abbrev WideText := List Point

namespace WideText

/-- The wide text of characters. -/
def ofChars (text : List Char) : WideText := text.map .char

/-- The wide text of a text. -/
def ofString (text : String) : WideText := ofChars text.toList

instance : Coe String WideText := ⟨ofString⟩

/-- The characters of a text without surrogates. -/
def chars? (text : WideText) : Option (List Char) :=
  text.mapM fun point => match point with
    | .char c => some c
    | .surrogate _ => none

end WideText

end CypherAssist.Text
