import CypherAssist.Text.Quoted

/-! UTF-8. The bytes of a text fall into pieces, one for each character and one for each run of
bytes that can be part of none. Text is read from bytes strictly, where the first such run is an
error, or leniently, where each run is shown as one replacement character. -/
namespace CypherAssist.Text.Utf8

/-- Why bytes are no character. -/
inductive Defect where
  | start
  | continuation
  | truncated
  deriving DecidableEq, Repr

/-- The wording of a defect. -/
def Defect.message : Defect → String
  | .start => "invalid start byte"
  | .continuation => "invalid continuation byte"
  | .truncated => "unexpected end of data"

/-- A piece of a text in bytes. -/
inductive Piece where
  | char (c : Char)
  | malformed (defect : Defect)
  deriving DecidableEq, Repr

/-- What a first byte above the ASCII range announces: the number of bytes that follow, the range
of the next one, and the bits of its own. -/
def announced? (byte : Nat) : Option (Nat × Nat × Nat × Nat) :=
  if 0xc2 ≤ byte ∧ byte ≤ 0xdf then some (1, 0x80, 0xbf, byte - 0xc0)
  else if byte = 0xe0 then some (2, 0xa0, 0xbf, 0)
  else if byte = 0xed then some (2, 0x80, 0x9f, 0xd)
  else if 0xe1 ≤ byte ∧ byte ≤ 0xef then some (2, 0x80, 0xbf, byte - 0xe0)
  else if byte = 0xf0 then some (3, 0x90, 0xbf, 0)
  else if 0xf1 ≤ byte ∧ byte ≤ 0xf3 then some (3, 0x80, 0xbf, byte - 0xf0)
  else if byte = 0xf4 then some (3, 0x80, 0x8f, 4)
  else none

/-- Reads the bytes that are still owed to a character, six bits each; gives the piece, the number
of bytes in it and what follows. A byte that does not fit is not part of the piece. -/
def finish (low high : Nat) : (owed bits size : Nat) → List UInt8 → Piece × Nat × List UInt8
  | 0, bits, size, bytes => (.char (Char.ofNat bits), size, bytes)
  | _ + 1, _, size, [] => (.malformed .truncated, size, [])
  | owed + 1, bits, size, byte :: bytes =>
    if low ≤ byte.toNat ∧ byte.toNat ≤ high then
      finish 0x80 0xbf owed (bits * 64 + (byte.toNat - 0x80)) (size + 1) bytes
    else (.malformed .continuation, size, byte :: bytes)

/-- The first piece of bytes that begin with the given one, its size and what follows. -/
def next (byte : UInt8) (bytes : List UInt8) : Piece × Nat × List UInt8 :=
  if byte.toNat < 0x80 then (.char (Char.ofNat byte.toNat), 1, bytes)
  else match announced? byte.toNat with
    | some (owed, low, high, bits) => finish low high owed bits 1 bytes
    | none => (.malformed .start, 1, bytes)

theorem finish_length_le (low high owed bits size : Nat) (bytes : List UInt8) :
    (finish low high owed bits size bytes).2.2.length ≤ bytes.length := by
  induction owed generalizing low high bits size bytes with
  | zero => simp [finish]
  | succ owed ih =>
    cases bytes with
    | nil => simp [finish]
    | cons byte bytes =>
      rw [finish]
      split
      · exact Nat.le_trans (ih ..) (Nat.le_succ _)
      · exact Nat.le_refl _

theorem next_length_le (byte : UInt8) (bytes : List UInt8) :
    (next byte bytes).2.2.length ≤ bytes.length := by
  unfold next
  split
  · exact Nat.le_refl _
  · split
    · exact finish_length_le ..
    · exact Nat.le_refl _

/-- The pieces of bytes with their sizes. -/
def pieces : List UInt8 → List (Piece × Nat)
  | [] => []
  | byte :: bytes =>
    let found := next byte bytes
    (found.1, found.2.1) :: pieces found.2.2
termination_by bytes => bytes.length
decreasing_by exact Nat.lt_succ_of_le (next_length_le byte bytes)

/-- The text of bytes in which each malformed piece shows as one replacement character. -/
def lenient (bytes : List UInt8) : List Char :=
  (pieces bytes).map fun piece => match piece.1 with
    | .char c => c
    | .malformed _ => '\ufffd'

/-- A malformed piece: where it stands, its bytes and what is wrong. -/
structure Malformed where
  position : Nat
  bytes : List UInt8
  defect : Defect
  deriving DecidableEq, Repr

/-- The wording of an error: the byte in question, or the first and last position of several. -/
def Malformed.message (error : Malformed) : String :=
  "'utf-8' codec can't decode " ++
  (match error.bytes with
    | [byte] =>
      "byte 0x" ++ String.ofList (hex 2 byte.toNat) ++ " in position " ++ toString error.position
    | bytes =>
      "bytes in position " ++ toString error.position ++ "-" ++
        toString (error.position + bytes.length - 1)) ++
  ": " ++ error.defect.message

/-- The text of pieces that begin at a position of the bytes, if none is malformed. -/
def strictFrom (bytes : List UInt8) (position : Nat) :
    List (Piece × Nat) → Except Malformed (List Char)
  | [] => .ok []
  | (.char c, size) :: rest => (strictFrom bytes (position + size) rest).map (c :: ·)
  | (.malformed defect, size) :: _ =>
    .error ⟨position, (bytes.drop position).take size, defect⟩

/-- The text of bytes without malformed pieces. -/
def strict (bytes : List UInt8) : Except Malformed (List Char) :=
  strictFrom bytes 0 (pieces bytes)

/-- The text of bytes that come in portions. A character that the end cuts off is then the only
thing left to read, and its position is counted from there. -/
def strictPortions (bytes : List UInt8) : Except Malformed (List Char) :=
  (strict bytes).mapError fun error =>
    if error.defect = .truncated then { error with position := 0 } else error

/-- The bytes of a text. -/
def encode (text : List Char) : List UInt8 := text.flatMap String.utf8EncodeChar

end CypherAssist.Text.Utf8
