import CypherAssist.Schema.Catalog
import Mathlib.Data.List.Basic

/-! The shape of schema data. A JSON value describes a catalog unless something in it has the wrong
shape or a number that stands for a name is too long to be written out. What is wrong is told here
entry by entry, apart from the order in which the fields are looked at. -/
namespace CypherAssist.Schema
open Text

/-- The values of JSON. The keys of a mapping are texts, each of which stands there once. -/
inductive IsJson : Value → Prop where
  | null : IsJson .null
  | bool : IsJson (.bool value)
  | int : IsJson (.int value)
  | float : IsJson (.float value)
  | text : IsJson (.text value)
  | list (items : ∀ item ∈ given, IsJson item) : IsJson (.list given)
  | mapping (keys : ∀ entry ∈ entries, ∃ name, entry.1 = .text name)
      (distinct : entries.Pairwise fun one two => one.1 ≠ two.1)
      (values : ∀ entry ∈ entries, IsJson entry.2) : IsJson (.mapping entries)

/-- What a mapping holds under a text. -/
def Under (entries : List (Value × Value)) (key : WideText) (value : Value) : Prop :=
  (.text key, value) ∈ entries

/-- What a field is given: the value under its camel-case key, else that under the key with
underscores, else null. -/
inductive Field.Given (field : Field) (entries : List (Value × Value)) : Value → Prop where
  | first (present : Under entries field.key found) : Given field entries found
  | second (absent : ∀ other, ¬ Under entries field.key other)
      (present : Under entries field.alternative found) : Given field entries found
  | missing (absent : ∀ other, ¬ Under entries field.key other)
      (neither : ∀ other, ¬ Under entries field.alternative other) : Given field entries .null

/-- The fields that take a list of names. -/
def Field.namesOnly : List Field :=
  [labels, relationshipTypes, databaseNames, aliasNames, propertyKeys]

/-- The fields that take signatures. -/
def Field.signatures : List Field := [procedureSignatures, functionSignatures]

/-- A whole number with more digits than are written out, by itself or in a collection. -/
inductive HoldsLong : Value → Prop where
  | number (long : Nat.pow 10 Value.mostDigits ≤ number.natAbs) : HoldsLong (.int number)
  | item (member : item ∈ items) (inside : HoldsLong item) : HoldsLong (.list items)
  | entry (member : (key, value) ∈ entries) (inside : HoldsLong value) :
      HoldsLong (.mapping entries)

namespace Field

variable (field : Field) (entries : List (Value × Value))

/-- The field is given something that is no list of names. -/
def NoNames : Prop :=
  ∃ value, field.Given entries value ∧ value ≠ .null ∧ ∀ items, value ≠ .list items

/-- The field is given something that is neither a list nor a mapping. -/
def NoSignatures : Prop :=
  ∃ value, field.Given entries value ∧ value ≠ .null ∧ (∀ items, value ≠ .list items) ∧
    ∀ parts, value ≠ .mapping parts

/-- The field is given a mapping with an entry that is no signature. -/
def BadSignature : Prop :=
  ∃ signatures, field.Given entries (.mapping signatures) ∧ ∃ signature ∈ signatures,
    signature.2 ≠ .null ∧ (∀ label, signature.2 ≠ .text label) ∧
      ∀ parts, signature.2 ≠ .mapping parts

/-- The field is given a list with a name that holds a number too long to be written out. -/
def LongName : Prop :=
  ∃ items, field.Given entries (.list items) ∧ ∃ item ∈ items, HoldsLong item

/-- The field is given a mapping with a label that holds such a number. -/
def LongLabel : Prop :=
  ∃ signatures, field.Given entries (.mapping signatures) ∧ ∃ signature ∈ signatures,
    ∃ parts, signature.2 = .mapping parts ∧
      ∃ label, Under parts (WideText.ofString "label") label ∧ HoldsLong label

end Field

/-- Data of the wrong shape. Parameters that are left out are not looked at. -/
inductive Misshapen (leftOut : Value → Prop) : Value → Prop where
  | root (some : value ≠ .null) (other : ∀ entries, value ≠ .mapping entries) :
      Misshapen leftOut value
  | names (among : field ∈ Field.namesOnly) (wrong : field.NoNames entries) :
      Misshapen leftOut (.mapping entries)
  | signatures (among : field ∈ Field.signatures) (wrong : field.NoSignatures entries) :
      Misshapen leftOut (.mapping entries)
  | signature (among : field ∈ Field.signatures) (wrong : field.BadSignature entries) :
      Misshapen leftOut (.mapping entries)
  | parameters (given : Field.parameters.Given entries value) (some : ¬ leftOut value)
      (other : ∀ parts, value ≠ .mapping parts) : Misshapen leftOut (.mapping entries)

/-- Data with a name or label that cannot be written out. -/
inductive Overlong : Value → Prop where
  | name (among : field ∈ Field.namesOnly ++ Field.signatures) (long : field.LongName entries) :
      Overlong (.mapping entries)
  | label (among : field ∈ Field.signatures) (long : field.LongLabel entries) :
      Overlong (.mapping entries)

/-! ## Faults -/

/-- An outcome is a fault just where the shape is wrong or a name is too long, and it tells one from
the other. -/
def Faults (outcome : Except CatalogFault α) (shape long : Prop) : Prop :=
  match outcome with
  | .ok _ => ¬ shape ∧ ¬ long
  | .error (.shape _) => shape
  | .error .longName => long

variable {outcome : Except CatalogFault α} {shape long wrong bulky : Prop}

theorem faults_ok (value : α) : Faults (.ok value) False False := ⟨id, id⟩

theorem faults_shape (error : ShapeError) :
    Faults (.error (.shape error) : Except CatalogFault α) True False := trivial

theorem Faults.congr (faults : Faults outcome shape long) (same : shape ↔ wrong)
    (alike : long ↔ bulky) : Faults outcome wrong bulky := by
  rwa [← propext same, ← propext alike]

/-- Steps in turn are at fault where one of them is, whatever the first one gives. -/
theorem Faults.bind {next : α → Except CatalogFault β} (first : Faults outcome shape long)
    (later : ∀ value, Faults (next value) wrong bulky) :
    Faults (outcome >>= next) (shape ∨ wrong) (long ∨ bulky) := by
  rcases outcome with (error | _) | value
  · exact .inl first
  · exact .inl first
  · have here : (.ok value >>= next) = next value := rfl
    have after := later value
    rw [here]
    rcases found : next value with (error | _) | result <;> rw [found] at after
    · exact .inr after
    · exact .inr after
    · exact ⟨not_or.mpr ⟨first.1, after.1⟩, not_or.mpr ⟨first.2, after.2⟩⟩

/-- Steps for each item are at fault where one of them is. -/
theorem faults_foldlM {step : β → α → Except CatalogFault β} {wrong bulky : α → Prop}
    {items : List α}
    (each : ∀ item ∈ items, ∀ known, Faults (step known item) (wrong item) (bulky item))
    (known : β) :
    Faults (items.foldlM step known) (∃ item ∈ items, wrong item) (∃ item ∈ items, bulky item) := by
  induction items generalizing known with
  | nil => exact (faults_ok known).congr (by simp) (by simp)
  | cons item rest ih =>
    rw [List.foldlM_cons]
    have later := ih fun other member => each other (List.mem_cons_of_mem _ member)
    exact ((each item List.mem_cons_self known).bind later).congr (by simp) (by simp)

theorem faults_mapM {step : α → Except CatalogFault β} {wrong bulky : α → Prop} {items : List α}
    (each : ∀ item ∈ items, Faults (step item) (wrong item) (bulky item)) :
    Faults (items.mapM step) (∃ item ∈ items, wrong item) (∃ item ∈ items, bulky item) := by
  induction items with
  | nil => exact (faults_ok []).congr (by simp) (by simp)
  | cons item rest ih =>
    rw [List.mapM_cons]
    have later := ih fun other member => each other (List.mem_cons_of_mem _ member)
    refine ((each item List.mem_cons_self).bind fun value => later.bind fun values =>
      faults_ok (value :: values)).congr (by simp) (by simp)

/-! ## Names -/

/-- A list is shown unless one of its items cannot be. -/
theorem shownAll_eq_none_iff {part : Nat → Option String} {items : List Value} :
    Value.shownAll part items = none ↔ ∃ item ∈ items, item.shownWith part = none := by
  induction items with
  | nil => simp [Value.shownAll]
  | cons item rest ih =>
    rw [Value.shownAll, List.exists_mem_cons_iff, ← ih]
    cases item.shownWith part <;> cases Value.shownAll part rest <;> simp

theorem shownEntries_eq_none_iff {part : Nat → Option String} {entries : List (Value × Value)} :
    Value.shownEntries part entries = none ↔
      ∃ entry ∈ entries, entry.1.shownWith part = none ∨ entry.2.shownWith part = none := by
  induction entries with
  | nil => simp [Value.shownEntries]
  | cons entry rest ih =>
    rw [Value.shownEntries, List.exists_mem_cons_iff, ← ih]
    cases entry.1.shownWith part <;> cases entry.2.shownWith part <;>
      cases Value.shownEntries part rest <;> simp

theorem intText?_eq_none_iff {number : Int} :
    Value.intText? number = none ↔ Nat.pow 10 Value.mostDigits ≤ number.natAbs := by
  simp only [Value.intText?, ite_eq_right_iff, reduceCtorEq, imp_false, Nat.not_lt]

/-- A JSON value is shown unless it holds a number that is too long. -/
theorem shownWith_eq_none_iff (part : Nat → Option String) {value : Value} (json : IsJson value) :
    value.shownWith part = none ↔ HoldsLong value := by
  induction json with
  | null => exact iff_of_false nofun nofun
  | @bool value => cases value <;> exact iff_of_false nofun nofun
  | float => exact iff_of_false nofun nofun
  | text => exact iff_of_false nofun nofun
  | @int number =>
    rw [Value.shownWith, intText?_eq_none_iff]
    constructor
    · exact .number
    · rintro (long | _ | _)
      exact long
  | list items ih =>
    rw [Value.shownWith, Option.map_eq_none_iff, shownAll_eq_none_iff]
    constructor
    · rintro ⟨item, member, unshown⟩
      exact .item member ((ih item member).mp unshown)
    · rintro (_ | ⟨member, inside⟩)
      exact ⟨_, member, (ih _ member).mpr inside⟩
  | mapping keys distinct values ih =>
    rw [Value.shownWith, Option.map_eq_none_iff, shownEntries_eq_none_iff]
    constructor
    · rintro ⟨⟨key, value⟩, member, unshown | unshown⟩
      · obtain ⟨name, same⟩ := keys _ member
        cases same
        cases unshown
      · exact .entry member ((ih _ member).mp unshown)
    · rintro (_ | _ | ⟨member, inside⟩)
      exact ⟨_, member, .inr ((ih _ member).mpr inside)⟩

variable {data : Data} {value : Value} {entries : List (Value × Value)} {field : Field}

theorem resolve_of_isJson (json : IsJson value) : data.resolve value = value := by
  cases json <;> rfl

/-- What is no text and no moment is written out as it is shown. -/
theorem text?_of_plain (noText : ∀ text, value ≠ .text text)
    (noTime : ∀ moment, value ≠ .time moment) :
    data.text? value = (data.shown? value).map WideText.ofString := by
  unfold Data.text?
  split
  · exact absurd rfl (noText _)
  · exact absurd rfl (noTime _)
  · rfl

/-- A JSON value may stand for a name unless it holds a number that is too long. -/
theorem faults_name (json : IsJson value) : Faults (data.name value) False (HoldsLong value) := by
  by_cases text : ∃ text, value = .text text
  · obtain ⟨text, rfl⟩ := text
    exact ⟨id, nofun⟩
  · have noTime : ∀ moment, value ≠ .time moment := by
      rintro moment rfl
      cases json
    have shown : data.text? value = (data.shown? value).map WideText.ofString :=
      text?_of_plain (fun word same => text ⟨word, same⟩) noTime
    have unshown := shownWith_eq_none_iff (data.shownPart (data.parts.length + 1) []) json
    rw [Data.name, shown, Data.shown?]
    cases found : value.shownWith (data.shownPart (data.parts.length + 1) []) with
    | none => exact unshown.mp found
    | some text =>
      rw [found] at unshown
      exact ⟨id, fun long => nomatch unshown.mpr long⟩

/-! ## Fields -/

/-- In a JSON mapping there is at most one value under a text. -/
theorem find?_eq_some_iff (json : IsJson (.mapping entries)) {key : WideText} :
    Value.find? entries (.text key) = some value ↔ Under entries key value := by
  cases json with
  | mapping keys distinct values =>
    clear values
    induction entries with
    | nil => simp [Value.find?, Under]
    | cons entry rest ih =>
      obtain ⟨own, named⟩ := keys _ List.mem_cons_self
      obtain ⟨first, held⟩ := entry
      cases named
      have later := ih (fun other member => keys other (List.mem_cons_of_mem _ member))
        distinct.of_cons
      by_cases same : own = key
      · subst same
        have apart : ¬ Under rest own value := fun member =>
          (List.pairwise_cons.mp distinct).1 _ member rfl
        have found : Value.find? ((.text own, held) :: rest) (.text own) = some held := by
          simp [Value.find?, Value.sameKey]
        rw [found, Option.some.injEq, Under, List.mem_cons, Prod.mk.injEq]
        constructor
        · rintro rfl
          exact .inl ⟨rfl, rfl⟩
        · rintro (⟨-, rfl⟩ | member)
          · rfl
          · exact absurd member apart
      · have passed : Value.find? ((.text own, held) :: rest) (.text key) =
            Value.find? rest (.text key) := by
          simp [Value.find?, Value.sameKey, same]
        rw [passed, later, Under, Under, List.mem_cons, Prod.mk.injEq]
        refine ⟨.inr, fun member => member.resolve_left fun both => ?_⟩
        exact same (Value.text.inj both.1).symm

theorem find?_eq_none_iff (json : IsJson (.mapping entries)) {key : WideText} :
    Value.find? entries (.text key) = none ↔ ∀ other, ¬ Under entries key other := by
  rw [Option.eq_none_iff_forall_ne_some]
  exact forall_congr' fun other => not_congr (find?_eq_some_iff json)

theorem isJson_of_under {key : WideText} (json : IsJson (.mapping entries))
    (present : Under entries key value) : IsJson value := by
  cases json with
  | mapping _ _ values => exact values _ present

theorem isJson_of_given (json : IsJson (.mapping entries)) (given : field.Given entries value) :
    IsJson value := by
  cases given with
  | first present => exact isJson_of_under json present
  | second _ present => exact isJson_of_under json present
  | missing => exact .null

/-- A field of a JSON mapping is given one value. -/
theorem value_eq_iff (json : IsJson (.mapping entries)) :
    field.value data entries = value ↔ field.Given entries value := by
  have own : field.Given entries (field.value data entries) := by
    unfold Field.value
    cases first : Value.find? entries (.text field.key) with
    | some found =>
      have present := (find?_eq_some_iff json).mp first
      rw [resolve_of_isJson (isJson_of_under json present)]
      exact .first present
    | none =>
      have absent := (find?_eq_none_iff json).mp first
      cases second : Value.find? entries (.text field.alternative) with
      | some found =>
        have present := (find?_eq_some_iff json).mp second
        rw [Option.getD_some, resolve_of_isJson (isJson_of_under json present)]
        exact .second absent present
      | none => exact .missing absent ((find?_eq_none_iff json).mp second)
  constructor
  · rintro rfl
    exact own
  · intro given
    have alone {key : WideText} {one two : Value} (first : Under entries key one)
        (second : Under entries key two) : one = two := by
      rw [← find?_eq_some_iff json] at first second
      exact Option.some.inj (first.symm.trans second)
    generalize field.value data entries = known at own
    cases own with
    | first present =>
      cases given with
      | first also => exact alone present also
      | second absent | missing absent => exact absurd present (absent _)
    | second absent present =>
      cases given with
      | first also => exact absurd also (absent _)
      | second _ also => exact alone present also
      | missing _ neither => exact absurd present (neither _)
    | missing absent neither =>
      cases given with
      | first also => exact absurd also (absent _)
      | second _ also => exact absurd also (neither _)
      | missing => rfl

/-- A list of names is at fault where it is no list, or where one of the names is too long. -/
theorem faults_names (data : Data) (field : Field) (json : IsJson (.mapping entries)) :
    Faults (field.names data entries) (field.NoNames entries) (field.LongName entries) := by
  have given {value : Value} : field.Given entries value ↔ field.value data entries = value :=
    (value_eq_iff json).symm
  have inside := isJson_of_given json (given.mpr rfl)
  simp only [Field.NoNames, Field.LongName, Field.names, given]
  cases found : field.value data entries with
  | null => exact (faults_ok []).congr (by simp) (by simp)
  | list items =>
    rw [found] at inside
    cases inside with
    | list inside =>
      exact (faults_mapM fun item member => faults_name (inside item member)).congr
        (by simp) (by simp)
  | object =>
    rw [found] at inside
    cases inside
  | _ => exact (faults_shape _).congr (by simp) (by simp)

/-- A number that is too long counts as true, as does a collection that holds one. -/
theorem isTruthy_of_holdsLong (long : HoldsLong value) : value.isTruthy := by
  cases long with
  | @number number long =>
    have positive (digits : Nat) : 0 < Nat.pow 10 digits := Nat.pow_pos (by decide)
    have other : number ≠ 0 := Int.natAbs_pos.mp (Nat.lt_of_lt_of_le (positive _) long)
    simpa [Value.isTruthy] using other
  | item member => simpa [Value.isTruthy] using List.ne_nil_of_mem member
  | entry member => simpa [Value.isTruthy] using List.ne_nil_of_mem member

/-- A signature is at fault where it is none, or where its label is too long. -/
theorem faults_signature (data : Data) (name : WideText) (json : IsJson value) :
    Faults (Signature.ofValue? data name value)
      (value ≠ .null ∧ (∀ label, value ≠ .text label) ∧ ∀ parts, value ≠ .mapping parts)
      (∃ parts, value = .mapping parts ∧
        ∃ label, Under parts (WideText.ofString "label") label ∧ HoldsLong label) := by
  rw [Signature.ofValue?, resolve_of_isJson json]
  cases value with
  | null => exact (faults_ok _).congr (by simp) (by simp)
  | text => exact (faults_ok _).congr (by simp) (by simp)
  | mapping parts =>
    have made (label : WideText) : Faults
        (.ok ⟨label, (Value.find? parts (.text "documentation")).getD .null⟩ :
          Except CatalogFault Signature) False False := faults_ok _
    cases found : Value.find? parts (.text "label") with
    | none =>
      have absent := (find?_eq_none_iff json).mp found
      simp only [found, Option.getD_none]
      refine (made name).congr (by simp) (iff_of_false id ?_)
      rintro ⟨_, same, label, present, -⟩
      cases same
      exact absent label present
    | some label =>
      have present := (find?_eq_some_iff json).mp found
      have inside := isJson_of_under json present
      have only : HoldsLong label ↔ ∃ given, Value.mapping parts = .mapping given ∧
          ∃ label, Under given (WideText.ofString "label") label ∧ HoldsLong label := by
        constructor
        · intro long
          exact ⟨parts, rfl, label, present, long⟩
        · rintro ⟨_, same, other, also, long⟩
          cases same
          rw [← find?_eq_some_iff json] at also
          exact Option.some.inj (found.symm.trans also) ▸ long
      simp only [found, Option.getD_some, resolve_of_isJson inside]
      by_cases counts : label.isTruthy
      · rw [if_pos counts]
        exact ((faults_name inside).bind made).congr (by simp) (by simpa using only)
      · rw [if_neg counts]
        refine (made name).congr (by simp) (iff_of_false id fun long => ?_)
        exact counts (isTruthy_of_holdsLong (only.mpr long))
  | _ => exact (faults_shape _).congr (by simp) (by simp)

/-- Signatures are at fault where they are no collection of them, where one of them is at fault, and
where a bare name is too long. -/
theorem faults_signatures (data : Data) (field : Field) (json : IsJson (.mapping entries)) :
    Faults (Signature.ofField? field data entries)
      (field.NoSignatures entries ∨ field.BadSignature entries)
      (field.LongName entries ∨ field.LongLabel entries) := by
  have given {value : Value} : field.Given entries value ↔ field.value data entries = value :=
    (value_eq_iff json).symm
  have inside := isJson_of_given json (given.mpr rfl)
  simp only [Field.NoSignatures, Field.BadSignature, Field.LongName, Field.LongLabel,
    Signature.ofField?, given]
  cases found : field.value data entries with
  | null => exact (faults_ok []).congr (by simp) (by simp)
  | mapping signatures =>
    rw [found] at inside
    cases inside with
    | mapping keys _ values =>
      have each : ∀ signature ∈ signatures, ∀ known, Faults (do
            let name ← data.name signature.1
            return Signature.insert known name (← Signature.ofValue? data name signature.2))
          (signature.2 ≠ .null ∧ (∀ label, signature.2 ≠ .text label) ∧
            ∀ parts, signature.2 ≠ .mapping parts)
          (∃ parts, signature.2 = .mapping parts ∧
            ∃ label, Under parts (WideText.ofString "label") label ∧ HoldsLong label) := by
        intro signature member known
        have name : Faults (data.name signature.1) False False := by
          obtain ⟨name, same⟩ := keys signature member
          rw [same]
          exact faults_ok name
        have read (name : WideText) := faults_signature data name (values signature member)
        have put (name : WideText) (read : Signature) :
            Faults (.ok (Signature.insert known name read)) False False := faults_ok _
        exact (name.bind fun name => (read name).bind (put name)).congr (by simp) (by simp)
      exact (faults_foldlM each []).congr (by simp) (by simp)
  | list items =>
    rw [found] at inside
    cases inside with
    | list inside =>
      have each : ∀ entry ∈ items.map fun item => (item, Value.null), ∀ known, Faults (do
            let name ← data.name entry.1
            return Signature.insert known name (← Signature.ofValue? data name entry.2))
          False (HoldsLong entry.1) := by
        intro entry member known
        obtain ⟨item, among, rfl⟩ := List.mem_map.mp member
        have put (name : WideText) :
            Faults (.ok (Signature.insert known name ⟨name, .null⟩)) False False := faults_ok _
        exact ((faults_name (inside item among)).bind put).congr (by simp) (by simp)
      exact (faults_foldlM each []).congr (by simp) (by simp)
  | _ => exact (faults_shape _).congr (by simp) (by simp)

/-- Parameters that count as false stand for none, whatever they are. -/
def CountsFalse (value : Value) : Prop := value.isTruthy = false

theorem faults_parameters (json : IsJson (.mapping entries)) :
    Faults (Catalog.parametersOf data entries)
      (∃ value, Field.parameters.Given entries value ∧ ¬ CountsFalse value ∧
        ∀ parts, value ≠ .mapping parts) False := by
  have given {value : Value} :
      Field.parameters.Given entries value ↔ Field.parameters.value data entries = value :=
    (value_eq_iff json).symm
  simp only [Catalog.parametersOf, given]
  generalize Field.parameters.value data entries = found
  by_cases counts : found.isTruthy
  · rw [if_pos counts]
    cases found with
    | mapping parts => exact (faults_ok parts).congr (by simp) Iff.rfl
    | _ => exact (faults_shape _).congr (by simp [CountsFalse, counts]) Iff.rfl
  · rw [if_neg counts]
    refine (faults_ok []).congr (iff_of_false id ?_) Iff.rfl
    rintro ⟨_, rfl, some, -⟩
    exact some (by simpa [CountsFalse] using counts)

/-! ## Data -/

theorem misshapen_mapping_iff {leftOut : Value → Prop} :
    Misshapen leftOut (.mapping entries) ↔
      (∃ value, Field.parameters.Given entries value ∧ ¬ leftOut value ∧
        ∀ parts, value ≠ .mapping parts) ∨
      (∃ field ∈ Field.namesOnly, field.NoNames entries) ∨
      ∃ field ∈ Field.signatures, field.NoSignatures entries ∨ field.BadSignature entries := by
  constructor
  · rintro (⟨_, other⟩ | ⟨among, wrong⟩ | ⟨among, wrong⟩ | ⟨among, wrong⟩ | ⟨given, some, other⟩)
    · exact absurd rfl (other entries)
    · exact .inr (.inl ⟨_, among, wrong⟩)
    · exact .inr (.inr ⟨_, among, .inl wrong⟩)
    · exact .inr (.inr ⟨_, among, .inr wrong⟩)
    · exact .inl ⟨_, given, some, other⟩
  · rintro (⟨value, given, some, other⟩ | ⟨field, among, wrong⟩ | ⟨field, among, wrong | wrong⟩)
    · exact .parameters given some other
    · exact .names among wrong
    · exact .signatures among wrong
    · exact .signature among wrong

theorem overlong_mapping_iff :
    Overlong (.mapping entries) ↔
      (∃ field ∈ Field.namesOnly, field.LongName entries) ∨
      ∃ field ∈ Field.signatures, field.LongName entries ∨ field.LongLabel entries := by
  constructor
  · rintro (⟨among, long⟩ | ⟨among, long⟩)
    · rcases List.mem_append.mp among with names | signatures
      · exact .inl ⟨_, names, long⟩
      · exact .inr ⟨_, signatures, .inl long⟩
    · exact .inr ⟨_, among, .inr long⟩
  · rintro (⟨field, among, long⟩ | ⟨field, among, long | long⟩)
    · exact .name (List.mem_append_left _ among) long
    · exact .name (List.mem_append_right _ among) long
    · exact .label among long

/-- Data are at fault where their shape is wrong or a name is too long. -/
theorem faults_ofData (json : IsJson data.root) :
    Faults (Catalog.ofData? data) (Misshapen CountsFalse data.root) (Overlong data.root) := by
  rw [Catalog.ofData?, resolve_of_isJson json]
  cases found : data.root with
  | null =>
    refine (faults_ok _).congr (iff_of_false id ?_) (iff_of_false id nofun)
    rintro ⟨some, -⟩
    exact some rfl
  | mapping entries =>
    rw [found] at json
    have names (field : Field) := faults_names data field json
    have signatures (field : Field) := faults_signatures data field json
    refine ((faults_parameters json).bind fun parameters => (names .labels).bind fun labels =>
      (names .relationshipTypes).bind fun types => (signatures .procedureSignatures).bind
      fun procedures => (signatures .functionSignatures).bind fun functions =>
      (names .databaseNames).bind fun databases => (names .aliasNames).bind fun aliases =>
      (names .propertyKeys).bind fun keys => faults_ok _).congr ?_ ?_
    · rw [misshapen_mapping_iff]
      simp only [Field.namesOnly, Field.signatures, List.exists_mem_cons_iff, List.not_mem_nil,
        false_and, exists_false, or_false]
      apply Eq.to_iff
      ac_rfl
    · rw [overlong_mapping_iff]
      simp only [Field.namesOnly, Field.signatures, List.exists_mem_cons_iff, List.not_mem_nil,
        false_and, exists_false, or_false, false_or]
      apply Eq.to_iff
      ac_rfl
  | _ => exact .root nofun nofun

/-- Where null alone counts as left out, data may also be of the wrong shape because of parameters
that count as false. -/
theorem misshapen_null_iff :
    Misshapen (· = .null) value ↔ Misshapen CountsFalse value ∨
      ∃ entries given, value = .mapping entries ∧ Field.parameters.Given entries given ∧
        CountsFalse given ∧ given ≠ .null ∧ ∀ parts, given ≠ .mapping parts := by
  constructor
  · rintro (⟨some, other⟩ | ⟨among, wrong⟩ | ⟨among, wrong⟩ | ⟨among, wrong⟩ |
      @⟨_, held, given, some, other⟩)
    · exact .inl (.root some other)
    · exact .inl (.names among wrong)
    · exact .inl (.signatures among wrong)
    · exact .inl (.signature among wrong)
    · by_cases counts : CountsFalse held
      · exact .inr ⟨_, _, rfl, given, counts, some, other⟩
      · exact .inl (.parameters given counts other)
  · rintro ((⟨some, other⟩ | ⟨among, wrong⟩ | ⟨among, wrong⟩ | ⟨among, wrong⟩ |
      ⟨given, some, other⟩) | ⟨entries, given, rfl, held, -, some, other⟩)
    · exact .root some other
    · exact .names among wrong
    · exact .signatures among wrong
    · exact .signature among wrong
    · refine .parameters given ?_ other
      rintro rfl
      exact some rfl
    · exact .parameters held some other

end CypherAssist.Schema
