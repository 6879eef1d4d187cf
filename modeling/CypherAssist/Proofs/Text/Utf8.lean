import CypherAssist.Text.Utf8

/-! Reading the bytes of a text gives the text back. The number of a character falls into groups of
six bits. Its first byte announces how many groups follow and has the topmost bits; where these do
not tell whether the number could do with fewer groups, is a surrogate or is too large, the range
of the next byte does. -/
namespace CypherAssist.Text.Utf8

variable {low high owed bits size group : Nat} {bytes : List UInt8}

/-! ## First bytes -/

/-- The byte in front of one group. Below 2 the number would do with a single byte. -/
theorem announced?_one (above : 2 ≤ group) (small : group < 32) :
    announced? (group + 0xc0) = some (1, 0x80, 0xbf, group) := by
  rw [announced?, if_pos ⟨by omega, by omega⟩, Nat.add_sub_cancel]

/-- The byte in front of two groups. -/
theorem announced?_two : ∀ group < 16, announced? (group + 0xe0) =
    some (2, if group = 0 then 0xa0 else 0x80, if group = 0xd then 0x9f else 0xbf, group) := by
  decide

/-- The byte in front of three groups. -/
theorem announced?_three : ∀ group < 5, announced? (group + 0xf0) =
    some (3, if group = 0 then 0x90 else 0x80, if group = 4 then 0x8f else 0xbf, group) := by
  decide

theorem next_of_announced? {byte : Nat} (fits : byte < 256) (above : 0x80 ≤ byte)
    (announced : announced? byte = some (owed, low, high, bits)) :
    next (UInt8.ofNat byte) bytes = finish low high owed bits 1 bytes := by
  have same : (UInt8.ofNat byte).toNat = byte := by
    rw [UInt8.toNat_ofNat', Nat.mod_eq_of_lt fits]
  rw [next, same, if_neg (by omega), announced]

/-! ## Groups of six bits -/

/-- A group that is in the range is added to the bits. -/
theorem finish_group (small : group < 64) (above : low ≤ group + 0x80)
    (below : group + 0x80 ≤ high) :
    finish low high (owed + 1) bits size (UInt8.ofNat (group + 0x80) :: bytes) =
      finish 0x80 0xbf owed (bits * 64 + group) (size + 1) bytes := by
  have same : (UInt8.ofNat (group + 0x80)).toNat = group + 0x80 := by
    rw [UInt8.toNat_ofNat', Nat.mod_eq_of_lt (by omega)]
  rw [finish, same, if_pos ⟨above, below⟩, Nat.add_sub_cancel]

/-- The last groups have the whole range. -/
theorem finish_last (number bits size : Nat) (bytes : List UInt8) :
    finish 0x80 0xbf 1 bits size (UInt8.ofNat (number % 64 + 0x80) :: bytes) =
      (.char (Char.ofNat (bits * 64 + number % 64)), size + 1, bytes) := by
  rw [finish_group (by omega) (by omega) (by omega), finish]

/-! ## Characters -/

/-- A number of a character is no surrogate and within the range. -/
theorem toNat_valid (c : Char) : c.toNat < 0xd800 ∨ 0xdfff < c.toNat ∧ c.toNat < 0x110000 :=
  c.valid

/-- The bytes of a character read as that character, whatever follows. -/
theorem pieces_encodeChar (c : Char) (rest : List UInt8) :
    pieces (String.utf8EncodeChar c ++ rest) =
      (.char c, (String.utf8EncodeChar c).length) :: pieces rest := by
  suffices ∃ byte others, String.utf8EncodeChar c = byte :: others ∧
      next byte (others ++ rest) = (.char c, others.length + 1, rest) by
    obtain ⟨byte, others, encoded, read⟩ := this
    rw [encoded, List.cons_append, pieces, read, List.length_cons]
  have valid := toNat_valid c
  have isChar (number : Nat) (same : number = c.toNat) : Char.ofNat number = c := by
    rw [same, Char.ofNat_toNat]
  simp only [String.utf8EncodeChar, Char.toNat_val]
  generalize c.toNat = number at valid isChar
  split
  · refine ⟨_, _, rfl, ?_⟩
    have same : (UInt8.ofNat number).toNat = number := by
      rw [UInt8.toNat_ofNat', Nat.mod_eq_of_lt (by omega)]
    rw [next, same, if_pos (by omega), isChar _ rfl]
    rfl
  split
  · refine ⟨_, _, rfl, ?_⟩
    rw [next_of_announced? (by omega) (by omega) (announced?_one (by omega) (by omega)),
      List.singleton_append, finish_last, isChar _ (by omega)]
    rfl
  split
  · refine ⟨_, _, rfl, ?_⟩
    rw [next_of_announced? (by omega) (by omega) (announced?_two _ (by omega)),
      List.cons_append, finish_group (by omega) (by split <;> omega) (by split <;> omega),
      List.singleton_append, finish_last, isChar _ (by omega)]
    rfl
  · refine ⟨_, _, rfl, ?_⟩
    rw [next_of_announced? (by omega) (by omega) (announced?_three _ (by omega)),
      List.cons_append, finish_group (by omega) (by split <;> omega) (by split <;> omega),
      List.cons_append, finish_group (by omega) (by omega) (by omega),
      List.singleton_append, finish_last, isChar _ (by omega)]
    rfl

/-- Each character of a text is a piece of its bytes, and nothing else is. -/
theorem pieces_encode (text : List Char) :
    pieces (encode text) = text.map fun c => (.char c, (String.utf8EncodeChar c).length) := by
  induction text with
  | nil => rw [encode, List.flatMap_nil, pieces, List.map_nil]
  | cons c text ih =>
    rw [encode, List.flatMap_cons, pieces_encodeChar, ← encode, ih, List.map_cons]

/-- The bytes of a text read as the text. -/
theorem lenient_encode (text : List Char) : lenient (encode text) = text := by
  rw [lenient, pieces_encode, List.map_map]
  exact List.map_id text

end CypherAssist.Text.Utf8
