import ApiContract.Proofs.Path.Writing

namespace ApiContract

structure Segment.IsInteger (word : List Char) : Prop where
  ne_nil : word ≠ []
  digits : ∀ c ∈ word, c.isDigit = true
  lt_limit : Nat.ofDigitChars 10 word 0 < indexLimit

/-- Identifiers and integers with dots between them. -/
def Path.IsChain (s : List Char) : Prop :=
  ∃ words, words ≠ [] ∧ s = Text.joined '.' words ∧
    ∀ word ∈ words, Identifier.isValid word = true ∨ Segment.IsInteger word

namespace Segment

variable {word : List Char}

theorem isSome_ofChars?_iff :
    (ofChars? word).isSome = true ↔ Identifier.isValid word = true ∨ IsInteger word := by
  by_cases hdigits : (!word.isEmpty && word.all Char.isDigit) = true
  · have hne : word ≠ [] := by
      rintro rfl
      cases hdigits
    have hall : word.all Char.isDigit = true := ((Bool.and_eq_true _ _).mp hdigits).2
    have hkey : ¬ Identifier.isValid word = true := by
      intro hvalid
      rw [not_all_isDigit_of_isValid hvalid] at hall
      cases hall
    rw [ofChars?, if_pos hdigits]
    constructor
    · intro h
      right
      refine ⟨hne, List.all_eq_true.mp hall, ?_⟩
      by_contra hlimit
      simp [hlimit] at h
    · rintro (hvalid | hinteger)
      · exact absurd hvalid hkey
      · simp [hinteger.lt_limit]
  · have hnone : ¬ IsInteger word := by
      intro h
      apply hdigits
      have hall : word.all Char.isDigit = true := List.all_eq_true.mpr h.digits
      simp [h.ne_nil, hall]
    rw [ofChars?, if_neg hdigits]
    by_cases hvalid : Identifier.isValid word = true
    · simp [hvalid]
    · simp [hvalid, hnone]

theorem dot_notMem_of_isSome (h : (ofChars? word).isSome = true) : '.' ∉ word := by
  intro hdot
  obtain hvalid | hinteger := isSome_ofChars?_iff.mp h
  · have hpart := Identifier.isPart_of_mem hvalid hdot
    rw [Identifier.not_isPart_dot] at hpart
    cases hpart
  · have hdigit := hinteger.digits '.' hdot
    cases hdigit

end Segment

namespace Path

theorem isSome_mapM_iff {words : List (List Char)} :
    (words.mapM Segment.ofChars?).isSome = true ↔
      ∀ word ∈ words, (Segment.ofChars? word).isSome = true := by
  induction words with
  | nil => simp
  | cons word words ih =>
    rw [List.mapM_cons, List.forall_mem_cons, ← ih]
    cases hword : Segment.ofChars? word with
    | none => simp
    | some segment => cases hwords : words.mapM Segment.ofChars? <;> simp

theorem isSome_ofChars?_iff {s : List Char} : (ofChars? s).isSome = true ↔ IsChain s := by
  rw [ofChars?, isSome_mapM_iff]
  constructor
  · intro h
    refine ⟨Text.pieces '.' s, Text.pieces_ne_nil '.' s, (Text.joined_pieces '.' s).symm, ?_⟩
    exact fun word hword => Segment.isSome_ofChars?_iff.mp (h word hword)
  · rintro ⟨words, hne, rfl, hwords⟩
    have hread : ∀ word ∈ words, (Segment.ofChars? word).isSome = true :=
      fun word hword => Segment.isSome_ofChars?_iff.mpr (hwords word hword)
    rw [Text.pieces_joined hne fun word hword => Segment.dot_notMem_of_isSome (hread word hword)]
    exact hread

/-- Paths survive being written. A path that was read from a text, and any path that leads somewhere
along identifiers and indices below the limit, is read from the text that it is written as. Texts
are read if and only if they are chains of identifiers and integers. -/
theorem ofString?_survives :
    (∀ (s : String) (path : Path), ofString? s = some path → ofString? path.text = some path) ∧
    (∀ path : Path, path ≠ [] → (∀ segment ∈ path, segment.Regular) →
      ofString? path.text = some path) ∧
    ∀ s : String, (ofString? s).isSome = true ↔ IsChain s.toList := by
  refine ⟨?_, ?_, ?_⟩
  · intro s path h
    exact ofChars?_written (regular_of_ofChars? h)
  · intro path hne hsegments
    exact ofChars?_written ⟨hne, hsegments⟩
  · intro s
    exact isSome_ofChars?_iff

/-- Zeros in front of an index are not written again. -/
theorem ofString?_survives_of_padded :
    let path : Path := [.key "items", .index 7, .key "$price"]
    ofString? "items.007.$price" = some path ∧ path.text = "items.7.$price" ∧
      ofString? "items.7.$price" = some path ∧ IsChain "items.007.$price".toList := by
  intro path
  have hread : ofString? "items.007.$price" = some path := by decide +kernel
  have hwritten : path.text = "items.7.$price" := by decide +kernel
  refine ⟨hread, hwritten, ?_, ?_⟩
  · rw [← hwritten]
    exact ofString?_survives.1 _ path hread
  · apply (ofString?_survives.2.2 _).mp
    rw [hread]
    rfl

end Path

end ApiContract
