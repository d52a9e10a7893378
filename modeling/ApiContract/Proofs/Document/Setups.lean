import Mathlib.Data.List.Induction
import ApiContract.Proofs.Document.Parsing

namespace ApiContract.Document

theorem implied_congr {known other : List String}
    (h : ∀ collection, collection ∈ known ↔ collection ∈ other) (item : Setup) :
    implied known item = implied other item := by
  cases item <;> simp [implied, h]

theorem implied_cases (known : List String) (item : Setup) :
    implied known item = [] ∨
      ∃ name collection template, item = .insertion name collection template ∧
        collection ∉ known ∧ implied known item = [.clear collection] := by
  cases item with
  | insertion name collection template =>
    by_cases h : collection ∈ known
    · exact .inl (by simp [implied, h])
    · exact .inr ⟨name, collection, template, rfl, h, by simp [implied, h]⟩
  | _ => exact .inl rfl

theorem mem_touched_expand {items : List Setup} {collection : String} :
    collection ∈ touched (expand [] items) ↔ collection ∈ touched items := by
  induction items using List.reverseRecOn with
  | nil => rfl
  | append_singleton items item ih =>
    rw [expand_append_singleton, touched_append, touched_append, touched_append,
      List.mem_append, List.mem_append, List.mem_append, ih]
    obtain hi | ⟨name, other, template, rfl, -, hi⟩ := implied_cases (touched items) item
    · rw [hi]
      simp [touched]
    · rw [hi]
      simp [touched, Setup.collection?]

theorem orderly_expand {items : List Setup} (h : Orderly items) : Orderly (expand [] items) := by
  induction items using List.reverseRecOn with
  | nil => exact .nil
  | append_singleton items item ih =>
    obtain ⟨ho, hn⟩ := orderly_append_singleton.mp h
    have hexpand := ih ho
    rw [expand_append_singleton]
    obtain hi | ⟨name, other, template, rfl, hother, hi⟩ := implied_cases (touched items) item
    · rw [hi, List.nil_append]
      refine orderly_append_singleton.mpr ⟨hexpand, fun collection hc => ?_⟩
      rw [mem_touched_expand]
      exact hn collection hc
    · rw [hi, ← List.append_assoc]
      have hclear : Orderly (expand [] items ++ [.clear other]) := by
        refine orderly_append_singleton.mpr ⟨hexpand, fun collection hc => ?_⟩
        cases hc
        rwa [mem_touched_expand]
      exact orderly_append_singleton.mpr ⟨hclear, fun collection hc => by cases hc⟩

theorem expand_expand (items : List Setup) : expand [] (expand [] items) = expand [] items := by
  induction items using List.reverseRecOn with
  | nil => rfl
  | append_singleton items item ih =>
    have hcongr := implied_congr (fun c => @mem_touched_expand items c) item
    rw [expand_append_singleton]
    obtain hi | ⟨name, other, template, rfl, hother, hi⟩ := implied_cases (touched items) item
    · rw [hi, List.nil_append, expand_append_singleton, ih, hcongr, hi, List.nil_append]
    · rw [hi, List.singleton_append, List.append_cons, expand_append_singleton,
        expand_append_singleton, ih, touched_append]
      simp [implied, touched, Setup.collection?]

theorem expand_cons_eq_self {known : List String} {item : Setup} {items : List Setup}
    (h : expand known (item :: items) = item :: items) :
    implied known item = [] ∧ expand (known ++ item.collection?.toList) items = items := by
  rw [expand] at h
  obtain hi | ⟨name, other, template, rfl, -, hi⟩ := implied_cases known item
  · rw [hi, List.nil_append, List.cons.injEq] at h
    exact ⟨hi, h.2⟩
  · rw [hi] at h
    cases h

/-- A collection that a setup touches is cleared at one place only, and before that nothing happens
to it. -/
theorem exists_clear_of_touched {items : List Setup} (ho : Orderly items) {collection : String}
    (h : collection ∈ touched items) :
    ∃ before after, expand [] items = before ++ .clear collection :: after ∧
      collection ∉ touched before ∧ .clear collection ∉ after := by
  induction items using List.reverseRecOn with
  | nil => cases h
  | append_singleton items item ih =>
    obtain ⟨ho, hn⟩ := orderly_append_singleton.mp ho
    rw [expand_append_singleton]
    by_cases hi : collection ∈ touched items
    · obtain ⟨before, after, he, hbefore, hafter⟩ := ih ho hi
      refine ⟨before, after ++ (implied (touched items) item ++ [item]), ?_, hbefore, ?_⟩
      · rw [he, List.append_assoc, List.cons_append]
      · rw [List.mem_append, List.mem_append, List.mem_singleton]
        rintro (hm | hm | rfl)
        · exact hafter hm
        · obtain hnone | ⟨_, other, _, -, hother, hone⟩ := implied_cases (touched items) item
          · rw [hnone] at hm
            cases hm
          · rw [hone, List.mem_singleton] at hm
            cases hm
            exact hother hi
        · exact hn collection rfl hi
    · have hbefore : collection ∉ touched (expand [] items) := by rwa [mem_touched_expand]
      rw [touched_append, List.mem_append, or_iff_right hi, touched_singleton,
        Option.mem_toList] at h
      cases item with
      | clear other =>
        cases h
        exact ⟨_, [], rfl, hbefore, List.not_mem_nil⟩
      | insertion name other template =>
        cases h
        refine ⟨_, [.insertion name collection template], ?_, hbefore, by simp⟩
        simp [implied, hi]
      | declaration name template => cases h

theorem exists_items_of_ofString {text : String} {document : Document}
    (h : ofString text = .ok document) : ∃ items, document.setups = expand [] items ∧
      Orderly items ∧ Lists document.collections items := by
  have hderives := derives_of_ofTokens h
  generalize Token.ofChars text.toList = tokens at hderives
  cases hderives with
  | intro _ _ horderly _ _ hlists => exact ⟨_, rfl, horderly, hlists⟩

end ApiContract.Document
