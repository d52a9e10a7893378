import ApiContract.Proofs.Path.Writing

namespace ApiContract

/-- The text of a segment stays in one piece, and is there at all. -/
def Segment.Spelled (segment : Segment) : Prop := segment.text ≠ "" ∧ '.' ∉ segment.text.toList

theorem Segment.spelled_index (i : Nat) : (Segment.index i).Spelled := by
  refine ⟨fun h => ?_, ?_⟩
  · exact Nat.toDigits_ne_nil (by rw [← text_index, h]; rfl)
  · rw [text_index]
    exact fun h => absurd (Nat.isDigit_of_mem_toDigits (by decide) (by decide) h) (by decide)

theorem Segment.index_of_text_eq {i j : Nat} (h : (index i).text = (index j).text) : i = j := by
  have hdigits := congrArg (fun text => Nat.ofDigitChars 10 text.toList 0) h
  simpa only [text_index, Nat.ofDigitChars_toDigits (by decide : 1 < 10) (by decide)] using hdigits

namespace Path

def Spelled (path : Path) : Prop := ∀ segment ∈ path, segment.Spelled

variable {path p q front : Path} {segment : Segment}

theorem Spelled.concat (h : front.Spelled) (hsegment : segment.Spelled) :
    Spelled (front ++ [segment]) :=
  List.forall_mem_append.mpr ⟨h, List.forall_mem_singleton.mpr hsegment⟩

theorem pieces_text (h : path.Spelled) (hne : path ≠ []) :
    Text.pieces '.' path.text.toList = path.map fun segment => segment.text.toList := by
  rw [toList_text]
  refine Text.pieces_joined (by simpa using hne) fun piece hpiece => ?_
  obtain ⟨segment, hsegment, rfl⟩ := List.mem_map.mp hpiece
  exact (h segment hsegment).2

theorem text_ne_empty (h : path.Spelled) (hne : path ≠ []) : path.text ≠ "" := by
  intro hempty
  have hpieces := pieces_text h hne
  rw [hempty] at hpieces
  obtain ⟨segment, rest, rfl⟩ := List.exists_cons_of_ne_nil hne
  obtain ⟨hfirst, -⟩ := List.cons.inj hpieces
  exact (h segment (.head _)).1 (String.toList_inj.mp hfirst.symm)

theorem text_eq_empty_iff (h : path.Spelled) : path.text = "" ↔ path = [] :=
  ⟨fun hempty => by_contra fun hne => text_ne_empty h hne hempty, fun hnil => hnil ▸ rfl⟩

theorem texts_eq_of_text_eq (hp : p.Spelled) (hq : q.Spelled) (h : p.text = q.text) :
    p.map Segment.text = q.map Segment.text := by
  by_cases hempty : p = []
  · subst hempty
    rw [(text_eq_empty_iff hq).mp h.symm]
  · have hne : q ≠ [] := fun hq => hempty ((text_eq_empty_iff hp).mp (by rw [h, hq]; rfl))
    have hpieces := pieces_text hp hempty
    rw [h, pieces_text hq hne] at hpieces
    have htexts := congrArg (List.map String.ofList) hpieces
    simpa only [List.map_map, Function.comp_def, String.ofList_toList] using htexts.symm

theorem text_concat (hne : front ≠ []) :
    (front ++ [segment]).text = extended front.text segment.text := by
  induction front with
  | nil => exact absurd rfl hne
  | cons first front ih =>
    cases front with
    | nil => simp [text, extended]
    | cons next front =>
      have hrest := ih (List.cons_ne_nil _ _)
      simp only [text, extended, List.map_cons, List.cons_append] at hrest ⊢
      rw [String.intercalate_cons_cons, hrest, String.intercalate_cons_cons]
      simp only [String.append_assoc]

theorem joinedPath_text (h : front.Spelled) :
    joinedPath front.text segment.text = (front ++ [segment]).text := by
  rw [joinedPath]
  split
  · rename_i hempty
    rw [(text_eq_empty_iff h).mp (String.isEmpty_iff.mp hempty)]
    simp [text]
  · rename_i hempty
    refine (text_concat fun hnil => hempty ?_).symm
    rw [hnil]
    rfl

end Path

end ApiContract
