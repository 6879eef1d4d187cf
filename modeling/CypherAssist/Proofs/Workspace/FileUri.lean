import CypherAssist.Proofs.Text.Utf8
import CypherAssist.Proofs.Workspace.Path
import CypherAssist.Workspace.Uri
import Mathlib.Data.List.TakeWhile

/-! URIs of files. The URI of a path spells each byte of its text, by itself where nothing in a URI
can be meant by it, by its number elsewhere. So no mark that ends the path or separates anything is
left, and reading the URI undoes the spelling byte by byte. -/
namespace CypherAssist.Workspace
open Text

/-- The characters that stand for themselves: those that no URI reserves, and the slash. -/
def isPlain (c : Char) : Bool :=
  c.isAlphanum || c == '-' || c == '.' || c == '_' || c == '~' || c == '/'

/-- The digits for the numbers below sixteen, in both letter cases. -/
def hexDigits : List (List Char) := ["0123456789abcdef".toList, "0123456789ABCDEF".toList]

/-- A digit for a number below sixteen. -/
def HexDigit (number : Nat) (c : Char) : Prop := ∃ digits ∈ hexDigits, digits[number]? = some c

instance (number : Nat) (c : Char) : Decidable (HexDigit number c) :=
  inferInstanceAs (Decidable (∃ digits ∈ hexDigits, digits[number]? = some c))

/-- A text that spells bytes: a plain one as its character, any other as a percent sign and two
digits. -/
inductive Escapes : List UInt8 → List Char → Prop where
  | nil : Escapes [] []
  | plain {byte : UInt8} {bytes : List UInt8} {text : List Char}
    (plain : isPlain (Char.ofNat byte.toNat)) (rest : Escapes bytes text) :
    Escapes (byte :: bytes) (Char.ofNat byte.toNat :: text)
  | escaped {byte : UInt8} {bytes : List UInt8} {text : List Char} {high low : Char}
    (reserved : ¬ isPlain (Char.ofNat byte.toNat)) (first : HexDigit (byte.toNat / 16) high)
    (second : HexDigit (byte.toNat % 16) low) (rest : Escapes bytes text) :
    Escapes (byte :: bytes) ('%' :: high :: low :: text)

/-- A URI of a path, the text of which is one of characters. -/
def FileUri (path : Path) (uri : String) : Prop :=
  ∃ named text, path.text = WideText.ofChars named ∧ Escapes (Utf8.encode named) text ∧
    uri = "file://" ++ String.ofList text

namespace Uri

variable {bytes : List UInt8} {text : List Char} {c : Char} {number : Nat}

/-! ## Escapes undone -/

theorem hexDigit?_of_digit (digit : HexDigit number c) : hexDigit? c = some number := by
  have read : ∀ digits ∈ hexDigits, ∀ number < 16,
      digits[number]?.bind hexDigit? = some number := by decide
  have sixteen : ∀ digits ∈ hexDigits, digits.length = 16 := by decide
  obtain ⟨digits, listed, found⟩ := digit
  have below := (List.getElem?_eq_some_iff.mp found).1
  simpa [found] using read digits listed number (sixteen digits listed ▸ below)

theorem isPlain_of_digit (digit : HexDigit number c) : isPlain c := by
  have plain : ∀ digits ∈ hexDigits, digits.all isPlain := by decide
  obtain ⟨digits, listed, found⟩ := digit
  exact List.all_eq_true.mp (plain digits listed) c (List.mem_of_getElem? found)

theorem ne_of_isPlain {mark : Char} (plain : isPlain c) (reserved : isPlain mark = false) :
    c ≠ mark := fun same => by
  rw [same, reserved] at plain
  cases plain

theorem unescapeBytes_cons (plain : c ≠ '%') :
    unescapeBytes (c :: text) = UInt8.ofNat c.toNat :: unescapeBytes text := by
  rw [unescapeBytes]
  exact fun _ _ _ percent => absurd percent plain

theorem toNat_of_isPlain (plain : isPlain c) : c.toNat < 0x80 := by
  have ranges : c.isAlphanum = ((decide (c.val ≥ 'A'.val ∧ c.val ≤ 'Z'.val) ||
      (decide (c.val ≥ 'a'.val) && decide (c.val ≤ 'z'.val))) ||
        (decide (c.val ≥ '0'.val) && decide (c.val ≤ '9'.val))) := rfl
  simp only [isPlain, ranges, Bool.or_eq_true, Bool.and_eq_true, decide_eq_true_eq, beq_iff_eq,
    UInt32.le_iff_toNat_le, ge_iff_le] at plain
  rcases plain with ((((letter | rfl) | rfl) | rfl) | rfl) | rfl
  · change ((65 ≤ c.toNat ∧ c.toNat ≤ 90) ∨ (97 ≤ c.toNat ∧ c.toNat ≤ 122)) ∨
      (48 ≤ c.toNat ∧ c.toNat ≤ 57) at letter
    omega
  all_goals decide

theorem toNat_ofByte (byte : UInt8) : (Char.ofNat byte.toNat).toNat = byte.toNat := by
  have valid : byte.toNat.isValidChar := .inl (Nat.lt_trans byte.toNat_lt (by decide))
  rw [Char.ofNat, dif_pos valid]
  rfl

/-- The bytes that a text spells are read from it. -/
theorem unescapeBytes_of_escapes (escapes : Escapes bytes text) : unescapeBytes text = bytes := by
  induction escapes with
  | nil => rfl
  | @plain byte _ _ plain _ ih =>
    have apart : Char.ofNat byte.toNat ≠ '%' := ne_of_isPlain plain rfl
    rw [unescapeBytes_cons apart, ih, toNat_ofByte, UInt8.ofNat_toNat]
  | escaped _ first second _ ih =>
    rw [unescapeBytes, hexDigit?_of_digit first, hexDigit?_of_digit second]
    simp only [ih, Nat.div_add_mod', UInt8.ofNat_toNat]

/-- Nothing but plain characters and percent signs is left. -/
theorem isPlain_of_escapes (escapes : Escapes bytes text) :
    ∀ c ∈ text, c ≠ '%' → isPlain c := by
  induction escapes with
  | nil => simp
  | plain plain _ ih => exact List.forall_mem_cons.mpr ⟨fun _ => plain, ih⟩
  | escaped _ first second _ ih =>
    exact List.forall_mem_cons.mpr ⟨fun apart => absurd rfl apart, List.forall_mem_cons.mpr
      ⟨fun _ => isPlain_of_digit first, List.forall_mem_cons.mpr
        ⟨fun _ => isPlain_of_digit second, ih⟩⟩⟩

theorem unescapeRun_of_ascii {run : List Char} (ascii : ∀ c ∈ text, c.toNat < 0x80) :
    unescapeRun run text = Utf8.lenient (unescapeBytes (run.reverse ++ text)) := by
  induction text generalizing run with
  | nil => rw [unescapeRun, List.append_nil]
  | cons c rest ih =>
    obtain ⟨small, others⟩ := List.forall_mem_cons.mp ascii
    rw [unescapeRun, if_pos small, ih others, List.reverse_cons, List.append_assoc,
      List.singleton_append]

/-- What spells the bytes of a text stands for the text. -/
theorem unescape_of_escapes {named : List Char} (escapes : Escapes (Utf8.encode named) text) :
    unescape text = named := by
  have ascii : ∀ c ∈ text, c.toNat < 0x80 := fun c member => by
    by_cases percent : c = '%'
    · rw [percent]
      decide
    · exact toNat_of_isPlain (isPlain_of_escapes escapes c member percent)
  rw [unescape, unescapeRun_of_ascii ascii, List.reverse_nil, List.nil_append,
    unescapeBytes_of_escapes escapes, Utf8.lenient_encode]

/-! ## Parts of a URI -/

/-- A text without any of the marks that a URI reads: those that it drops, and those that end a
path. -/
def Unmarked (text : List Char) : Prop := ∀ c ∈ text, c ∉ ['\t', '\r', '\n', '#', '?']

theorem unmarked_of_escapes (escapes : Escapes bytes text) : Unmarked text := by
  intro c member mark
  have marks : ['\t', '\r', '\n', '#', '?'].all fun mark => mark != '%' && !isPlain mark := by
    decide
  have reserved : c ≠ '%' ∧ isPlain c = false := by simpa using List.all_eq_true.mp marks c mark
  exact ne_of_isPlain (isPlain_of_escapes escapes c member reserved.1) reserved.2 rfl

/-- A URI without a host, and with no mark behind its path, is all path. -/
theorem ofText?_file (unmarked : Unmarked ('/' :: text)) :
    ofText? ("file://" ++ String.ofList ('/' :: text)) =
      .ok ⟨"file".toList, [], '/' :: text⟩ := by
  simp only [Unmarked, List.mem_cons, List.not_mem_nil, or_false, not_or] at unmarked
  have clean : cleaned ("file://".toList ++ '/' :: text) = "file://".toList ++ '/' :: text := by
    have kept : ('/' :: text).filter (fun c => c != '\t' && c != '\r' && c != '\n') =
        '/' :: text :=
      List.filter_eq_self.mpr fun c member => by simp [unmarked c (by simpa using member)]
    exact congrArg ("file://".toList ++ ·) kept
  have fragment : ('/' :: text).takeWhile (· ≠ '#') = '/' :: text :=
    List.takeWhile_eq_self_iff.mpr fun c member => by simp [unmarked c (by simpa using member)]
  have query : ('/' :: text).takeWhile (· ≠ '?') = '/' :: text :=
    List.takeWhile_eq_self_iff.mpr fun c member => by simp [unmarked c (by simpa using member)]
  have scheme : splitScheme ("file://".toList ++ '/' :: text) =
      ("file".toList, "//".toList ++ '/' :: text) := rfl
  have authority : splitAuthority ("//".toList ++ '/' :: text) = ([], '/' :: text) := rfl
  have unchecked : checkAuthority [] = .ok () := rfl
  have spelled : ("file://" ++ String.ofList ('/' :: text)).toList =
      "file://".toList ++ '/' :: text :=
    String.toList_append.trans (congrArg _ String.toList_ofList)
  rw [ofText?, spelled, clean, scheme]
  dsimp only
  rw [authority]
  dsimp only
  rw [unchecked, fragment, query]
  rfl

/-- The URI of a path names the path. -/
theorem pathOfUri?_of_fileUri {path : Path} {uri : String} (normal : path.Normal)
    (names : FileUri path uri) : pathOfUri? uri = .ok path := by
  obtain ⟨named, text, spelt, escapes, rfl⟩ := names
  obtain ⟨rest, rfl⟩ : ∃ rest, text = '/' :: rest := by
    obtain ⟨more, rfl⟩ : ∃ more, named = '/' :: more := by
      rw [Path.text_of_normal normal] at spelt
      cases named with
      | nil => cases spelt
      | cons c more => exact ⟨more, by rw [← Point.char.inj (List.cons.inj spelt).1]⟩
    cases escapes with
    | plain => exact ⟨_, rfl⟩
    | escaped reserved => exact absurd rfl reserved
  rw [pathOfUri?, ofText?_file (unmarked_of_escapes escapes), Except.map, toPath,
    unescape_of_escapes escapes, ← spelt, Path.ofText_text normal]

end Uri

end CypherAssist.Workspace
