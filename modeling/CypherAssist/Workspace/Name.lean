import CypherAssist.Text.Utf8

/-! Names as the system of a machine knows them: in bytes, which need not be UTF-8. In a text the
bytes that are no UTF-8 show as certain surrogates, one for each byte. Any other surrogate stands
for no bytes. -/
namespace CypherAssist.Workspace
open Text

/-- A name in bytes. -/
abbrev Name := List UInt8

/-- Why a text is no name: surrogates side by side, from the first one on that stands for no
byte. -/
structure Unnameable where
  surrogate : Fin 0x800
  position : Nat
  length : Nat
  deriving DecidableEq, Repr

/-- The wording of an error: the surrogate in question, or the first and last position of
several. -/
def Unnameable.message (error : Unnameable) : String :=
  "'utf-8' codec can't encode " ++
  (if error.length = 1 then
    "character '\\u" ++ String.ofList (hex 4 (Point.surrogate error.surrogate).code) ++
      "' in position " ++ toString error.position
  else
    "characters in position " ++ toString error.position ++ "-" ++
      toString (error.position + error.length - 1)) ++
  ": surrogates not allowed"

namespace Name

/-- The surrogate for a byte. -/
def surrogate (byte : UInt8) : Point :=
  .surrogate ⟨0x400 + byte.toNat, by have := byte.toNat_lt; omega⟩

/-- The byte that a surrogate stands for. Bytes of ASCII characters never show as surrogates. -/
def byte? (place : Fin 0x800) : Option UInt8 :=
  if 0x480 ≤ place.val ∧ place.val < 0x500 then some (UInt8.ofNat (place.val - 0x400)) else none

/-- The bytes of a text that stands at a position in another one. -/
def encodeFrom (position : Nat) : WideText → Except Unnameable Name
  | [] => .ok []
  | .char c :: rest => (encodeFrom (position + 1) rest).map (String.utf8EncodeChar c ++ ·)
  | .surrogate place :: rest =>
    match byte? place with
    | some byte => (encodeFrom (position + 1) rest).map (byte :: ·)
    | none => .error ⟨place, position, 1 + (rest.takeWhile Point.isSurrogate).length⟩

/-- The name that a text spells. -/
def ofText? (text : WideText) : Except Unnameable Name := encodeFrom 0 text

/-- The text of bytes by their pieces. -/
def textOf (bytes : Name) : List (Utf8.Piece × Nat) → WideText
  | [] => []
  | (.char c, size) :: rest => .char c :: textOf (bytes.drop size) rest
  | (.malformed _, size) :: rest =>
    (bytes.take size).map surrogate ++ textOf (bytes.drop size) rest

/-- A name as a text shows it. -/
def text (name : Name) : WideText := textOf name (Utf8.pieces name)

end Name

end CypherAssist.Workspace
