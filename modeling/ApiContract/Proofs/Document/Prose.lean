import ApiContract.Proofs.Document.Unplaced
import ApiContract.Proofs.Source.Lines

namespace ApiContract

namespace Text

theorem joined_eq_intercalate (rows : List (List Char)) :
    joined '\n' rows = ['\n'].intercalate rows := by
  induction rows with
  | nil => rfl
  | cons row rows ih =>
    cases rows with
    | nil => simp [joined]
    | cons next rows =>
      rw [joined, ih, List.intercalate_cons_cons, List.append_assoc]
      · rfl
      · exact List.cons_ne_nil next rows

theorem lines_joined {rows : List (List Char)} {last : List Char}
    (hn : ∀ row ∈ rows ++ [last], '\n' ∉ row) (hr : ∀ row ∈ rows, row.getLast? ≠ some '\r') :
    lines (joined '\n' (rows ++ [last])) = rows ++ if last.isEmpty then [] else [last] := by
  have hmap : rows.map dropReturn = rows :=
    (List.map_congr_left fun row hrow => dropReturn_eq_self (hr row hrow)).trans (List.map_id' rows)
  simp [lines, pieces_joined (List.concat_ne_nil last rows) hn, hmap]

/-- Neither a heading nor a line of a block. -/
structure IsProse (row : List Char) : Prop where
  not_heading : row.head? ≠ some '#'
  not_indented : row.head? ≠ some '\t'

end Text

namespace Token

def grow (text : List Char) (joins : Bool) : List Token → List Token
  | block first more :: tokens =>
    if joins then block ⟨0, text⟩ (first :: more) :: tokens
    else block ⟨0, text⟩ [] :: block first more :: tokens
  | tokens => block ⟨0, text⟩ [] :: tokens

def ofRow (row : List Char) (joins : Bool) (tokens : List Token) : List Token :=
  match row with
  | '#' :: _ =>
    let level := (row.takeWhile (· == '#')).length
    heading level (Text.trim (row.drop level)) (Span.line 0) :: tokens
  | '\t' :: text => grow text joins tokens
  | _ => tokens

/-- The tokens of rows without their places: a block goes on as long as rows are indented. -/
def ofRows : List (List Char) → List Token
  | [] => []
  | row :: rows => ofRow row (rows.head?.any Text.isIndented) (ofRows rows)

theorem unplaced_indent {start : Nat} {rows : List (List Char)} (text : List Char) :
    (indent ⟨start, text⟩ (ofLines (Line.numbered (start + 1) rows))).map unplaced =
      grow text (rows.head?.any Text.isIndented)
        ((ofLines (Line.numbered (start + 1) rows)).map unplaced) := by
  cases h : ofLines (Line.numbered (start + 1) rows) with
  | nil => rfl
  | cons token tokens =>
    cases token with
    | heading => rfl
    | block first more =>
      have hn := (number_of_ofLines h).2
      simp only [indent, List.map_cons, unplaced, grow, hn]
      split <;> rfl

theorem ofRow_prose {prose : List Char} (h : Text.IsProse prose) (joins : Bool)
    (tokens : List Token) : ofRow prose joins tokens = tokens := by
  unfold ofRow
  split
  · exact absurd rfl h.not_heading
  · exact absurd rfl h.not_indented
  · rfl

theorem ofRow_congr {row : List Char} {joins joins' : Bool} (tokens : List Token)
    (h : Text.isIndented row = true → joins = joins') :
    ofRow row joins tokens = ofRow row joins' tokens := by
  unfold ofRow
  split
  · rfl
  · rw [h rfl]
  · rfl

theorem map_unplaced_ofLines (start : Nat) (rows : List (List Char)) :
    (ofLines (Line.numbered start rows)).map unplaced = ofRows rows := by
  induction rows generalizing start with
  | nil => rfl
  | cons row rows ih =>
    rw [Line.numbered, ofLines_cons, ofRows, ← ih (start + 1)]
    dsimp only [ofLine]
    split
    · rfl
    · exact unplaced_indent _
    · rename_i hhash htab
      have hprose : Text.IsProse row :=
        ⟨fun e => (List.head?_eq_some_iff.mp e).elim hhash,
          fun e => (List.head?_eq_some_iff.mp e).elim htab⟩
      rw [ofRow_prose hprose]

/-- Prose may come in anywhere but inside of a block. -/
theorem ofRows_insert_prose {before after : List (List Char)} {prose : List Char}
    (h : Text.IsProse prose)
    (hb : ¬ (before.getLast?.any Text.isIndented = true ∧
      after.head?.any Text.isIndented = true)) :
    ofRows (before ++ prose :: after) = ofRows (before ++ after) := by
  induction before with
  | nil => exact ofRow_prose h _ _
  | cons row before ih =>
    cases before with
    | nil =>
      have hindented : Text.isIndented prose = false := beq_false_of_ne h.not_indented
      -- a block that ends on this row has to end without the prose as well
      have hends : Text.isIndented row = true → after.head?.any Text.isIndented = false :=
        fun hrow => Bool.not_eq_true _ ▸ fun ha => hb ⟨hrow, ha⟩
      rw [List.singleton_append, List.singleton_append, ofRows, ofRows, ofRows, ofRow_prose h]
      refine ofRow_congr _ fun hrow => ?_
      rw [List.head?_cons, Option.any_some, hindented, hends hrow]
    | cons next before =>
      have hrest := ih (by rwa [List.getLast?_cons_cons] at hb)
      exact congrArg (ofRow row (Text.isIndented next)) hrest

theorem map_unplaced_ofChars {rows : List (List Char)} (h : ∀ row ∈ rows, '\n' ∉ row ∧ '\r' ∉ row) :
    (ofChars (Text.joined '\n' rows)).map unplaced = ofRows rows := by
  rcases List.eq_nil_or_concat' rows with rfl | ⟨front, last, rfl⟩
  · rfl
  · have hlines := Text.lines_joined (fun row hrow => (h row hrow).1) fun row hrow hr =>
      (h row (List.mem_append_left _ hrow)).2 (List.mem_of_getLast? hr)
    rw [ofChars, map_unplaced_ofLines, hlines]
    cases last with
    | nil =>
      have hprose : Text.IsProse [] := ⟨by simp, by simp⟩
      exact (ofRows_insert_prose hprose (by simp)).symm
    | cons c last => rfl

end Token

namespace Document

theorem ofString_intercalate {rows : List String}
    (h : ∀ row ∈ rows, '\n' ∉ row.toList ∧ '\r' ∉ row.toList) :
    (ofString ("\n".intercalate rows)).mapError Fault.unplaced =
      ofTokens (Token.ofRows (rows.map String.toList)) := by
  rw [← Token.map_unplaced_ofChars (List.forall_mem_map.mpr h), ofTokens_unplaced, unplacing_id,
    Text.joined_eq_intercalate, ofString, String.toList_intercalate]
  rfl

/-- A line of prose may come in anywhere but between two lines of a block: the same document is read
then, or the same is wrong. -/
theorem ofString_insert_prose {before after : List String} {prose : String}
    (hlines : ∀ line ∈ before ++ prose :: after, '\n' ∉ line.toList ∧ '\r' ∉ line.toList)
    (hprose : Text.IsProse prose.toList)
    (hapart : ¬ ((∃ above ∈ before.getLast?, Text.isIndented above.toList = true) ∧
      ∃ below ∈ after.head?, Text.isIndented below.toList = true)) :
    (ofString ("\n".intercalate (before ++ prose :: after))).mapError Fault.unplaced =
      (ofString ("\n".intercalate (before ++ after))).mapError Fault.unplaced := by
  have hfewer : ∀ line ∈ before ++ after, '\n' ∉ line.toList ∧ '\r' ∉ line.toList := by
    intro line hline
    refine hlines line ?_
    rcases List.mem_append.mp hline with hb | ha
    · exact List.mem_append_left _ hb
    · exact List.mem_append_right _ (List.mem_cons_of_mem _ ha)
  rw [ofString_intercalate hlines, ofString_intercalate hfewer, List.map_append, List.map_cons,
    List.map_append]
  refine congrArg ofTokens (Token.ofRows_insert_prose hprose fun h => hapart ?_)
  simpa [List.getLast?_map, List.head?_map, Option.any_eq_true] using h

theorem ofString_insert_prose_of_remarked :
    let before := ["# t", "## Setup", "## c", "### Out", "\tx"]
    let after := ["## d", ""]
    (∀ line ∈ before ++ "// and so on" :: after, '\n' ∉ line.toList ∧ '\r' ∉ line.toList) ∧
      Text.IsProse "// and so on".toList ∧
      ¬ ((∃ above ∈ before.getLast?, Text.isIndented above.toList = true) ∧
        ∃ below ∈ after.head?, Text.isIndented below.toList = true) ∧
      (ofString ("\n".intercalate (before ++ "// and so on" :: after))).mapError Fault.unplaced =
        (ofString ("\n".intercalate (before ++ after))).mapError Fault.unplaced := by
  intro before after
  have hlines : ∀ line ∈ before ++ "// and so on" :: after,
      '\n' ∉ line.toList ∧ '\r' ∉ line.toList := by decide
  have hprose : Text.IsProse "// and so on".toList := ⟨by decide, by decide⟩
  have hapart : ¬ ((∃ above ∈ before.getLast?, Text.isIndented above.toList = true) ∧
      ∃ below ∈ after.head?, Text.isIndented below.toList = true) := by
    rintro ⟨-, below, hb, hi⟩
    cases hb
    cases hi
  exact ⟨hlines, hprose, hapart, ofString_insert_prose hlines hprose hapart⟩

end Document

end ApiContract
