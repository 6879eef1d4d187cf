import CypherAssist.Workspace.Files

/-! Names of plain texts. A text of characters alone is spelt in UTF-8, and the system can be asked
for it unless it has the null character. -/
namespace CypherAssist.Workspace
open Text

/-- A text of characters, none of which is null. -/
def Plain (text : WideText) : Prop := ∀ point ∈ text, ∃ c, point = .char c ∧ c ≠ '\x00'

variable {text other : WideText}

theorem plain_append (first : Plain text) (second : Plain other) : Plain (text ++ other) :=
  fun point member => (List.mem_append.mp member).elim (first point) (second point)

/-- Characters are spelt in UTF-8. -/
theorem Name.encodeFrom_ofChars (chars : List Char) (position : Nat) :
    Name.encodeFrom position (WideText.ofChars chars) = .ok (Utf8.encode chars) := by
  induction chars generalizing position with
  | nil => rfl
  | cons c rest ih =>
    have split : WideText.ofChars (c :: rest) = .char c :: WideText.ofChars rest := rfl
    rw [split, Name.encodeFrom, ih]
    rfl

/-- Only the null character has a null byte. -/
theorem zero_notMem_encodeChar {c : Char} (apart : c ≠ '\x00') :
    (0 : UInt8) ∉ String.utf8EncodeChar c := by
  have positive : c.toNat ≠ 0 := fun zero => apart (Char.toNat_inj.mp zero)
  have nonzero (number : Nat) (fits : number < 256) (some : number ≠ 0) :
      (0 : UInt8) ≠ UInt8.ofNat number := fun same => some <| by
    simpa [UInt8.toNat_ofNat', Nat.mod_eq_of_lt fits] using (congrArg UInt8.toNat same).symm
  simp only [String.utf8EncodeChar, Char.toNat_val]
  split
  · simpa using nonzero _ (by omega) positive
  split
  · simp only [List.mem_cons, List.not_mem_nil, or_false, not_or]
    exact ⟨nonzero _ (by omega) (by omega), nonzero _ (by omega) (by omega)⟩
  split
  · simp only [List.mem_cons, List.not_mem_nil, or_false, not_or]
    exact ⟨nonzero _ (by omega) (by omega), nonzero _ (by omega) (by omega),
      nonzero _ (by omega) (by omega)⟩
  · simp only [List.mem_cons, List.not_mem_nil, or_false, not_or]
    exact ⟨nonzero _ (by omega) (by omega), nonzero _ (by omega) (by omega),
      nonzero _ (by omega) (by omega), nonzero _ (by omega) (by omega)⟩

/-- The system can be asked for a plain text. -/
theorem systemName_of_plain (plain : Plain text) : ∃ name, systemName text = .ok name := by
  obtain ⟨chars, rfl⟩ : ∃ chars, text = WideText.ofChars chars := by
    induction text with
    | nil => exact ⟨[], rfl⟩
    | cons point rest ih =>
      obtain ⟨⟨c, rfl, -⟩, later⟩ := List.forall_mem_cons.mp plain
      obtain ⟨chars, rfl⟩ := ih later
      exact ⟨c :: chars, rfl⟩
  have filled : (0 : UInt8) ∉ Utf8.encode chars := by
    intro member
    obtain ⟨c, listed, zero⟩ := List.mem_flatMap.mp member
    obtain ⟨d, same, apart⟩ := plain (.char c) (List.mem_map_of_mem listed)
    exact zero_notMem_encodeChar (Point.char.inj same ▸ apart) zero
  have spelt : Name.ofText? (WideText.ofChars chars) = .ok (Utf8.encode chars) :=
    Name.encodeFrom_ofChars chars 0
  exact ⟨Utf8.encode chars, by simp [systemName, spelt, filled]⟩

end CypherAssist.Workspace
