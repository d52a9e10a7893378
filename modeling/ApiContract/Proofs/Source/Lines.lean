import ApiContract.Proofs.Text.Ends
import ApiContract.Source.Token

namespace ApiContract

namespace Text

def flat (rows : List (List Char)) : List Char := rows.flatMap (· ++ ['\n'])

theorem flat_append (as bs : List (List Char)) : flat (as ++ bs) = flat as ++ flat bs :=
  List.flatMap_append

theorem getLast?_flat {rows : List (List Char)} (h : rows ≠ []) :
    (flat rows).getLast? = some '\n' := by
  rw [← List.dropLast_concat_getLast h, flat_append]
  simp [flat, ← List.append_assoc]

theorem pieces_flat {rows : List (List Char)} (h : ∀ row ∈ rows, '\n' ∉ row) :
    pieces '\n' (flat rows) = rows ++ [[]] := by
  induction rows with
  | nil => rfl
  | cons row rows ih =>
    have hflat : flat (row :: rows) = row ++ '\n' :: flat rows := by simp [flat]
    rw [hflat, pieces_append (h row (by simp)), ih fun r hr => h r (by simp [hr]),
      List.cons_append]

theorem dropReturn_eq_self {row : List Char} (h : row.getLast? ≠ some '\r') :
    dropReturn row = row := if_neg h

theorem lines_flat {rows : List (List Char)} (hn : ∀ row ∈ rows, '\n' ∉ row)
    (hr : ∀ row ∈ rows, row.getLast? ≠ some '\r') : lines (flat rows) = rows := by
  have hmap : rows.map dropReturn = rows :=
    (List.map_congr_left fun row hrow => dropReturn_eq_self (hr row hrow)).trans (List.map_id' rows)
  simp [lines, pieces_flat hn, hmap]

theorem notMem_of_mem_pieces {sep : Char} {s p : List Char} (h : p ∈ pieces sep s) : sep ∉ p := by
  induction s generalizing p with
  | nil =>
    obtain rfl := List.mem_singleton.mp h
    simp
  | cons c s ih =>
    simp only [pieces] at h
    split at h
    · rcases List.mem_cons.mp h with rfl | h
      · simp
      · exact ih h
    · rename_i hc
      split at h
      · rename_i he
        exact absurd he (pieces_ne_nil sep s)
      · rename_i q qs he
        rw [he] at ih
        rcases List.mem_cons.mp h with rfl | h
        · simp [Ne.symm hc, ih (List.mem_cons_self ..)]
        · exact ih (List.mem_cons_of_mem _ h)

theorem newline_notMem_of_mem_lines {text row : List Char} (h : row ∈ lines text) : '\n' ∉ row := by
  have hlast : ∀ p, p ∈ (pieces '\n' text).getLast? → '\n' ∉ p := fun p hp =>
    notMem_of_mem_pieces (List.mem_of_getLast? hp)
  rcases List.mem_append.mp h with h | h
  · obtain ⟨p, hp, rfl⟩ := List.mem_map.mp h
    have hn := notMem_of_mem_pieces ((List.dropLast_sublist _).subset hp)
    unfold dropReturn
    split
    · exact fun hm => hn ((List.dropLast_sublist p).subset hm)
    · exact hn
  · split at h
    · cases h
    · obtain rfl := List.mem_singleton.mp h
      cases hl : (pieces '\n' text).getLast? with
      | none => simp
      | some p => exact hlast p hl

def isIndented (row : List Char) : Bool := row.head? == some '\t'

end Text

namespace Line

theorem text_mem_of_mem_numbered {start : Nat} {rows : List (List Char)} {line : Line}
    (h : line ∈ numbered start rows) : line.text ∈ rows := by
  induction rows generalizing start with
  | nil => cases h
  | cons row rows ih =>
    rcases List.mem_cons.mp h with rfl | h
    · exact List.mem_cons_self ..
    · exact List.mem_cons_of_mem _ (ih h)

theorem map_text_numbered (start : Nat) (rows : List (List Char)) :
    (numbered start rows).map text = rows := by
  induction rows generalizing start with
  | nil => rfl
  | cons row rows ih => rw [numbered, List.map_cons, ih]

theorem numbered_append (start : Nat) (as bs : List (List Char)) :
    numbered start (as ++ bs) = numbered start as ++ numbered (start + as.length) bs := by
  induction as generalizing start with
  | nil => rfl
  | cons a as ih =>
    rw [List.cons_append, numbered, numbered, ih, List.cons_append, List.length_cons,
      Nat.add_right_comm, Nat.add_assoc]

end Line

namespace Token

theorem ofLines_cons (line : Line) (lines : List Line) :
    ofLines (line :: lines) = ofLine line (ofLines lines) := rfl

theorem exists_indent_eq (line : Line) (tokens : List Token) :
    ∃ more rest, indent line tokens = block line more :: rest := by
  unfold indent
  split
  · split
    · exact ⟨_, _, rfl⟩
    · exact ⟨_, _, rfl⟩
  · exact ⟨_, _, rfl⟩

theorem number_of_ofLines {start : Nat} {rows : List (List Char)} {first : Line}
    {more : List Line} {tokens : List Token}
    (h : ofLines (Line.numbered start rows) = block first more :: tokens) :
    start ≤ first.number ∧ (first.number = start ↔ rows.head?.any Text.isIndented = true) := by
  induction rows generalizing start with
  | nil => cases h
  | cons row rows ih =>
    rw [Line.numbered, ofLines_cons] at h
    unfold ofLine at h
    split at h
    · cases h
    · rename_i text ht
      obtain ⟨more', rest, hi⟩ := exists_indent_eq ⟨start, text⟩
        (ofLines (Line.numbered (start + 1) rows))
      cases hi.symm.trans h
      have hrow : row = '\t' :: text := ht
      simp [Text.isIndented, hrow]
    · rename_i htab
      have hlt := (ih h).1
      have hrow : Text.isIndented row = false := by
        rcases row with _ | ⟨c, row⟩
        · rfl
        · exact beq_false_of_ne fun e => htab row (by rw [Option.some.inj e])
      refine ⟨Nat.le_of_succ_le hlt, ?_⟩
      simp only [List.head?_cons, Option.any_some, hrow]
      exact iff_of_false (Nat.ne_of_gt hlt) Bool.false_ne_true

def Plain : Token → Prop
  | heading _ text _ => Text.trim text = text ∧ '\n' ∉ text
  | block first more => ∀ line ∈ first :: more, '\n' ∉ line.text

theorem plain_indent {line : Line} {tokens : List Token} (hl : '\n' ∉ line.text)
    (h : ∀ token ∈ tokens, token.Plain) : ∀ token ∈ indent line tokens, token.Plain := by
  have hblock : Plain (block line []) := by simpa [Plain] using hl
  unfold indent
  split
  · rename_i first more tokens
    obtain ⟨hfirst, htokens⟩ := List.forall_mem_cons.mp h
    split
    · exact List.forall_mem_cons.mpr ⟨List.forall_mem_cons.mpr ⟨hl, hfirst⟩, htokens⟩
    · exact List.forall_mem_cons.mpr ⟨hblock, h⟩
  · exact List.forall_mem_cons.mpr ⟨hblock, h⟩

theorem plain_ofLine {line : Line} {tokens : List Token} (hl : '\n' ∉ line.text)
    (h : ∀ token ∈ tokens, token.Plain) : ∀ token ∈ ofLine line tokens, token.Plain := by
  unfold ofLine
  split
  · refine List.forall_mem_cons.mpr ⟨⟨Text.trim_trim _, fun hm => hl ?_⟩, h⟩
    exact List.mem_of_mem_drop (Text.mem_of_mem_trim hm)
  · rename_i text ht
    exact plain_indent (fun hm => hl (by simp [ht, hm])) h
  · exact h

theorem plain_ofLines {lines : List Line} (h : ∀ line ∈ lines, '\n' ∉ line.text) :
    ∀ token ∈ ofLines lines, token.Plain := by
  induction lines with
  | nil => simp [ofLines]
  | cons line lines ih =>
    obtain ⟨hline, hlines⟩ := List.forall_mem_cons.mp h
    exact plain_ofLine hline (ih hlines)

theorem plain_ofChars (text : List Char) : ∀ token ∈ ofChars text, token.Plain :=
  plain_ofLines fun _ hl => Text.newline_notMem_of_mem_lines (Line.text_mem_of_mem_numbered hl)

end Token

end ApiContract
