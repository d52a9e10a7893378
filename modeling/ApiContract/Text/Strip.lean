namespace ApiContract.Text

def strip? : (start s : List Char) → Option (List Char)
  | [], s => some s
  | _ :: _, [] => none
  | a :: start, c :: s => if a = c then strip? start s else none

def stripEnd? (ending s : List Char) : Option (List Char) :=
  (strip? ending.reverse s.reverse).map List.reverse

theorem strip?_append (start s : List Char) : strip? start (start ++ s) = some s := by
  induction start with
  | nil => rfl
  | cons a start ih => simpa [strip?] using ih

theorem append_of_strip? {start s rest : List Char} (h : strip? start s = some rest) :
    start ++ rest = s := by
  induction start generalizing s with
  | nil => simpa [strip?] using h.symm
  | cons a start ih =>
    cases s with
    | nil => simp [strip?] at h
    | cons c s =>
      simp only [strip?] at h
      split at h
      · rename_i e
        rw [List.cons_append, ih h, e]
      · cases h

theorem strip?_eq_some_iff {start s rest : List Char} :
    strip? start s = some rest ↔ s = start ++ rest :=
  ⟨fun h => (append_of_strip? h).symm, fun h => h ▸ strip?_append start rest⟩

end ApiContract.Text
