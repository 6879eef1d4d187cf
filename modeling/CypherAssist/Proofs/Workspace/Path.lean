import CypherAssist.Proofs.Workspace.Name

/-! Paths in normal form: from the root on, of characters alone, with nothing in their text that
reading it would drop. Such a path is read back from its text, and without parents its parts are the
place that it names. -/
namespace CypherAssist.Workspace.Path
open Text

variable {path other : Path}

/-- A path in normal form: one slash in front, and between slashes nothing that is empty or stands
for the directory itself. All parts are plain texts. -/
structure Normal (path : Path) : Prop where
  start : path.start = .root
  isPart : ∀ part ∈ path.parts, isPart part = true
  slash : ∀ part ∈ path.parts, slash ∉ part
  plain : ∀ part ∈ path.parts, Plain part

/-! ## Texts -/

theorem segments_eq_splitOn (text : WideText) : segments text = text.splitOn slash := by
  induction text with
  | nil => rfl
  | cons point rest ih =>
    rw [segments, ih, List.splitOn_eq_splitOnP, List.splitOn_eq_splitOnP,
      List.splitOnP_cons_eq_if_modifyHead]
    by_cases mark : point = slash
    · rw [if_pos mark, if_pos (beq_iff_eq.mpr mark)]
    · rw [if_neg mark, if_neg (by simpa using mark)]
      cases found : rest.splitOnP (· == slash) with
      | nil => exact absurd found (List.splitOnP_ne_nil _ _)
      | cons first more => rfl

/-- Parts are told apart by the slashes that join them. Where there are none, the empty text is left
as the only segment. -/
theorem segments_intercalate {parts : List WideText} (unmarked : ∀ part ∈ parts, slash ∉ part) :
    segments ([slash].intercalate parts) = if parts = [] then [[]] else parts := by
  split
  · rename_i none
    rw [none]
    rfl
  · rename_i some
    rw [segments_eq_splitOn]
    exact List.splitOn_intercalate slash unmarked some

theorem text_of_normal (normal : path.Normal) :
    path.text = slash :: [slash].intercalate path.parts := by
  rw [text, if_neg (by simp [normal.start]), normal.start]
  rfl

/-- The first part keeps the slash in front of it the only one. -/
theorem startOf_text (normal : path.Normal) :
    startOf path.text = (.root, [slash].intercalate path.parts) := by
  rw [text_of_normal normal]
  cases parts : path.parts with
  | nil => rfl
  | cons first others =>
    have listed : first ∈ path.parts := by simp [parts]
    obtain ⟨tail, begins⟩ : ∃ tail, [slash].intercalate (first :: others) = first ++ tail := by
      cases others with
      | nil => exact ⟨[], by simp⟩
      | cons second others => exact ⟨_, List.intercalate_cons_cons.trans (List.append_assoc ..)⟩
    rw [begins]
    cases points : first with
    | nil =>
      have part := normal.isPart first listed
      rw [points] at part
      cases part
    | cons point rest =>
      have apart : point ≠ slash := fun mark => normal.slash first listed (by simp [points, mark])
      rw [List.cons_append, slash, startOf]
      · exact fun _ same => absurd (List.cons.inj same).1 apart
      · exact fun _ same => absurd (List.cons.inj same).1 apart

/-- A path is read back from its text. -/
theorem ofText_text (normal : path.Normal) : ofText path.text = path := by
  have kept : path.parts.filter Path.isPart = path.parts :=
    List.filter_eq_self.mpr normal.isPart
  rw [ofText, startOf_text normal]
  simp only [segments_intercalate normal.slash, ← normal.start]
  split
  · rename_i none
    rw [show path = ⟨path.start, path.parts⟩ from rfl, none]
    rfl
  · rw [kept]

/-! ## Places -/

theorem plain_intercalate {parts : List WideText} (plain : ∀ part ∈ parts, Plain part) :
    Plain ([slash].intercalate parts) := by
  have mark : Plain [slash] := List.forall_mem_singleton.mpr ⟨'/', rfl, by decide⟩
  induction parts with
  | nil => exact nofun
  | cons first others ih =>
    obtain ⟨head, later⟩ := List.forall_mem_cons.mp plain
    cases others with
    | nil => simpa using head
    | cons second others =>
      rw [List.intercalate_cons_cons]
      exact plain_append (plain_append head mark) (ih later)

/-- All parts that lead to a part stand before it, or are that part. -/
theorem mem_leading {before : List WideText} {part found : WideText}
    (leads : found ∈ Files.leading .root before part) : found ∈ before ∨ found = part := by
  rw [Files.leading] at leads
  split at leads
  · simpa using leads
  · split at leads
    · split at leads
      · simpa using leads
      · exact .inl (List.dropLast_subset _ leads)
    · cases leads

/-- Plain parts can be looked up. -/
theorem lookUp_of_plain {before parts : List WideText} (led : ∀ part ∈ before, Plain part)
    (plain : ∀ part ∈ parts, Plain part) : Files.lookUp .root before parts = .ok () := by
  induction parts generalizing before with
  | nil => rfl
  | cons part rest ih =>
    obtain ⟨head, later⟩ := List.forall_mem_cons.mp plain
    have here : ∀ found ∈ Files.leading .root before part, Plain found := fun found leads =>
      (mem_leading leads).elim (led found) fun same => same ▸ head
    have root : Plain "/" := List.forall_mem_singleton.mpr ⟨'/', rfl, by decide⟩
    have spelt : Plain (Path.text ⟨.root, Files.leading .root before part⟩) := by
      rw [text, if_neg (by simp)]
      exact plain_append root (plain_intercalate here)
    obtain ⟨name, asked⟩ := systemName_of_plain spelt
    rw [Files.lookUp, asked]
    simp only [ih here later, ite_self]

/-- Without parents nothing is taken back. -/
theorem foldl_place {parts : List WideText} (below : parent ∉ parts) (place : List WideText) :
    parts.foldl (fun place part => if part = parent then place.dropLast else place ++ [part])
      place = place ++ parts := by
  induction parts generalizing place with
  | nil => simp
  | cons part rest ih =>
    have apart : parent ≠ part := List.ne_of_not_mem_cons below
    have later : parent ∉ rest := List.not_mem_of_not_mem_cons below
    rw [List.foldl_cons, if_neg apart.symm, ih later, List.append_assoc, List.singleton_append]

theorem isAbsolute_of_normal (normal : path.Normal) : path.isAbsolute = true := by
  rw [isAbsolute, normal.start]
  rfl

theorem place_of_normal (normal : path.Normal) (below : parent ∉ path.parts)
    (current : List WideText) : path.place current = path.parts := by
  rw [place, isAbsolute_of_normal normal, if_pos rfl, foldl_place below, List.nil_append]

/-- A path in normal form can be resolved. -/
theorem resolve_of_normal (files : Files) (normal : path.Normal) :
    files.resolve path = .ok (path.place (files.current.map Name.text)) := by
  rw [Files.resolve, isAbsolute_of_normal normal, if_pos rfl,
    lookUp_of_plain (by simp) normal.plain]
  rfl

/-- Paths without parents that resolve to one place are one path. -/
theorem eq_of_resolve {files : Files} (normal : path.Normal) (otherNormal : other.Normal)
    (below : parent ∉ path.parts) (otherBelow : parent ∉ other.parts)
    (same : files.resolve path = files.resolve other) : path = other := by
  rw [resolve_of_normal files normal, resolve_of_normal files otherNormal,
    place_of_normal normal below, place_of_normal otherNormal otherBelow] at same
  obtain ⟨start, parts⟩ := path
  obtain ⟨otherStart, otherParts⟩ := other
  exact Path.mk.injEq .. ▸ ⟨normal.start.trans otherNormal.start.symm, Except.ok.inj same⟩

end CypherAssist.Workspace.Path
