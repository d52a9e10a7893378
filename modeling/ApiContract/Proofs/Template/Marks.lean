import ApiContract.Proofs.Template.Rows

namespace ApiContract.Template

def colonText (optional : Bool) : List Char := (if optional then ['?'] else []) ++ [':']

theorem markText_eq (name : List Char) (optional : Bool) :
    markText name optional = name ++ colonText optional := by
  simp [markText, colonText]

theorem head_colonText (optional : Bool) (rest : List Char) :
    ∀ c ∈ (colonText optional ++ rest).head?, c = '?' ∨ c = ':' := by
  cases optional <;> simp [colonText]

theorem takeOptional_colonText (optional : Bool) (rest : List Char) :
    Opening.takeOptional (colonText optional ++ rest) = (optional, ':' :: rest) := by
  cases optional <;> rfl

structure Takes (opening? : List Char → Option Opening) (name : List Char) : Prop where
  alone : ∀ optional, opening? (markText name optional) = some ⟨name, optional, []⟩
  beside : ∀ optional row, Text.Tight row → '\n' ∉ row →
    opening? (markText name optional ++ ' ' :: row) = some ⟨name, optional, row⟩

theorem behind?_alone (name : List Char) (optional : Bool) :
    Opening.behind? name (colonText optional) = some ⟨name, optional, []⟩ := by
  cases optional <;> rfl

theorem not_isGap_of_not_isBlank {c : Char} (h : Text.isBlank c = false) :
    Opening.isGap c = false := by
  simp only [Opening.isGap, Bool.or_eq_false_iff, beq_eq_false_iff_ne]
  constructor <;> rintro rfl <;> simp [Text.isBlank] at h

theorem behind?_beside (name : List Char) (optional : Bool) {row : List Char} (ht : Text.Tight row)
    (hn : '\n' ∉ row) :
    Opening.behind? name (colonText optional ++ ' ' :: row) = some ⟨name, optional, row⟩ := by
  have hd : row.dropWhile Opening.isGap = row := by
    cases row with
    | nil => rfl
    | cons c row => simp [not_isGap_of_not_isBlank (ht.head c (by simp))]
  rw [Opening.behind?, takeOptional_colonText]
  simp [Opening.afterColon?, Opening.isGap, hd, hn]

theorem takes_key? {name : List Char} (h : Identifier.isValid name = true) :
    Takes Opening.key? name := by
  have hend : ∀ optional rest, ∀ c ∈ (colonText optional ++ rest).head?,
      Identifier.isPart c = false := fun optional rest c hc => by
    rcases head_colonText optional rest c hc with rfl | rfl <;> decide
  constructor
  · intro optional
    have ht := Identifier.take?_append h (hend optional [])
    rw [List.append_nil] at ht
    rw [markText_eq, Opening.key?, ht]
    exact behind?_alone name optional
  · intro optional row hrow hn
    rw [markText_eq, List.append_assoc, Opening.key?, Identifier.take?_append h (hend optional _)]
    exact behind?_beside name optional hrow hn

theorem isStep_text {segment : Segment} (h : segment.Regular) :
    Opening.isStep segment.text.toList = true := by
  cases segment with
  | key name =>
    have hv : Identifier.isValid name.toList = true := h
    simp [Opening.isStep, Segment.text, hv]
  | index n =>
    have hd : (Nat.toDigits 10 n).all Char.isDigit = true :=
      List.all_eq_true.mpr fun c hc => Nat.isDigit_of_mem_toDigits (by decide) (by decide) hc
    rw [Segment.text_index]
    simp [Opening.isStep, Opening.isDigits, hd, Nat.toDigits_ne_nil]

theorem pieces_text {path : Path} (h : path.Regular) :
    Text.pieces '.' path.text.toList = path.map fun segment => segment.text.toList := by
  rw [Path.toList_text]
  apply Text.pieces_joined (by simpa using h.ne_nil)
  intro p hp
  obtain ⟨segment, hs, rfl⟩ := List.mem_map.mp hp
  exact Segment.dot_notMem_text (h.segments segment hs)

theorem takePath?_append {path : Path} (h : path.Regular) {rest : List Char}
    (hr : ∀ c ∈ rest.head?, Opening.isPathPart c = false) :
    Opening.takePath? (path.text.toList ++ rest) = some (path.text.toList, rest) := by
  obtain ⟨h₁, h₂⟩ := Text.takeWhile_append_of_head (word_of_regular h).parts hr
  have hall : (Text.pieces '.' path.text.toList).all Opening.isStep = true := by
    rw [pieces_text h, List.all_eq_true]
    intro p hp
    obtain ⟨segment, hs, rfl⟩ := List.mem_map.mp hp
    exact isStep_text (h.segments segment hs)
  simp only [Opening.takePath?, h₁, h₂, hall, ↓reduceIte]

theorem takes_path? {path : Path} (h : path.Regular) : Takes Opening.path? path.text.toList := by
  have hend : ∀ optional rest, ∀ c ∈ (colonText optional ++ rest).head?,
      Opening.isPathPart c = false := fun optional rest c hc => by
    rcases head_colonText optional rest c hc with rfl | rfl <;> decide
  constructor
  · intro optional
    have ht := takePath?_append h (hend optional [])
    rw [List.append_nil] at ht
    rw [markText_eq, Opening.path?, ht]
    exact behind?_alone _ optional
  · intro optional row hrow hn
    rw [markText_eq, List.append_assoc, Opening.path?, takePath?_append h (hend optional _)]
    exact behind?_beside _ optional hrow hn

namespace Group

/-- The group has the lines of a template, as they stand beside a mark or below it. -/
def Holds (group : Group) (t : Template) : Prop :=
  group.lines.map Line.text = if group.inline then t.inner else t.texts

theorem below_texts {lines : List Line} {rows rest : List (List Char)}
    (h : lines.map Line.text = rows.map tabbed ++ rest)
    (hr : ∀ row ∈ rest.head?, row.head? ≠ some '\t') :
    ((below lines).map Line.dedent).map Line.text = rows ∧
      (beyond lines).map Line.text = rest := by
  obtain ⟨a, b, rfl, ha, hb⟩ := List.map_eq_append_iff.mp h
  have hin : ∀ line ∈ a, line.isIndented = true := by
    intro line hl
    have hm : line.text ∈ rows.map tabbed := ha ▸ List.mem_map_of_mem hl
    obtain ⟨row, -, he⟩ := List.mem_map.mp hm
    simp [Line.isIndented, ← he, tabbed]
  have hout : b.takeWhile Line.isIndented = [] ∧ b.dropWhile Line.isIndented = b := by
    cases b with
    | nil => simp
    | cons line b =>
      have hl : line.text ∈ rest.head? := by simp [← hb]
      have hi : line.isIndented = false := by simpa [Line.isIndented] using hr _ hl
      simp [hi]
  rw [below, beyond, List.takeWhile_append_of_pos hin, List.dropWhile_append_of_pos hin, hout.1,
    hout.2, List.append_nil]
  refine ⟨?_, hb⟩
  have hd : (a.map Line.dedent).map Line.text = (a.map Line.text).map (·.drop 1) := by
    simp [Line.dedent, Function.comp_def]
  rw [hd, ha, map_drop_tabbed]

end Group

theorem isEmpty_trim_of_tight {row : List Char} (h : Text.Tight row) :
    (Text.trim row).isEmpty = false := by
  rw [h.trim]
  simpa using h.ne_nil

end ApiContract.Template
