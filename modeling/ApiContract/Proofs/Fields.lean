import Mathlib.Data.List.Forall2
import Mathlib.Data.List.Sort
import Mathlib.Data.String.Basic
import ApiContract.Fields

namespace ApiContract.Fields

variable {α β : Type}

theorem mem_of_mem_set {key : String} {value : α} {fields : Fields α} {m : String × α}
    (h : m ∈ set key value fields) : m = (key, value) ∨ m ∈ fields := by
  induction fields with
  | nil => simpa [set] using h
  | cons n rest ih =>
    simp only [set] at h
    split at h
    · exact (List.mem_cons.mp h).imp_right (List.mem_cons_of_mem n)
    · split at h
      · exact List.mem_cons.mp h
      · rcases List.mem_cons.mp h with rfl | h
        · exact .inr (by simp)
        · exact (ih h).imp_right (List.mem_cons_of_mem n)

theorem mem_of_mem_ofList {members : List (String × α)} {m : String × α} (h : m ∈ ofList members) :
    m ∈ members := by
  suffices ∀ fields : Fields α,
      m ∈ members.foldl (fun fields m => set m.1 m.2 fields) fields → m ∈ members ∨ m ∈ fields from
    (this [] h).resolve_right (by simp)
  clear h
  induction members with
  | nil => exact fun _ h => .inr h
  | cons n members ih =>
    intro fields h
    rcases ih _ h with h | h
    · exact .inl (by simp [h])
    · exact (mem_of_mem_set h).imp_left fun e => by simp [e]

theorem set_eq_append {key : String} {fields : Fields α} (h : ∀ k ∈ fields.keys, k < key)
    (value : α) : set key value fields = fields ++ [(key, value)] := by
  induction fields with
  | nil => rfl
  | cons m rest ih =>
    have hm : m.1 < key := h m.1 (by simp [keys])
    have hr := ih fun k hk => h k (List.mem_cons_of_mem _ hk)
    have hlt : ¬ key < m.1 := fun hk => String.lt_irrefl _ (String.lt_trans hm hk)
    have hne : m.1 ≠ key := fun e => String.lt_irrefl _ (e ▸ hm)
    simp [set, hne, hlt, hr]

theorem ofList_eq_self {members : Fields α} (h : Sorted members) : ofList members = members := by
  suffices ∀ fields : Fields α, Sorted (fields ++ members) →
      members.foldl (fun fields m => set m.1 m.2 fields) fields = fields ++ members from
    this [] h
  clear h
  induction members with
  | nil => simp
  | cons m members ih =>
    intro fields h
    have hlt : ∀ k ∈ fields.keys, k < m.1 := by
      intro k hk
      have hp := h
      simp only [Sorted, keys, List.map_append, List.pairwise_append] at hp
      exact hp.2.2 k hk m.1 (by simp)
    rw [List.foldl_cons, set_eq_append hlt, ih _ (by simpa using h)]
    simp

theorem set_perm {key : String} {fields : Fields α} (h : key ∉ fields.keys) (value : α) :
    (set key value fields).Perm ((key, value) :: fields) := by
  induction fields with
  | nil => exact .refl _
  | cons m rest ih =>
    obtain ⟨hm, hrest⟩ := not_or.mp (List.mem_cons.not.mp h)
    rw [set, if_neg (Ne.symm hm)]
    split
    · exact .refl _
    · exact ((ih hrest).cons m).trans (.swap _ _ _)

theorem ofList_perm {members : List (String × α)} (h : (members.map Prod.fst).Nodup) :
    (ofList members).Perm members := by
  suffices ∀ fields : Fields α, (∀ m ∈ members, m.1 ∉ fields.keys) →
      (members.foldl (fun fields m => set m.1 m.2 fields) fields).Perm (members ++ fields) by
    have hall := this [] (by simp [keys])
    rw [List.append_nil] at hall
    exact hall
  induction members with
  | nil => exact fun fields _ => .refl fields
  | cons m members ih =>
    intro fields hfields
    obtain ⟨hm, hmembers⟩ := List.nodup_cons.mp h
    obtain ⟨hfresh, hfields⟩ := List.forall_mem_cons.mp hfields
    rw [List.foldl_cons]
    refine (ih hmembers _ fun n hn hk => ?_).trans ?_
    · rcases mem_keys_set hk with he | hk
      · exact hm (he ▸ List.mem_map_of_mem hn)
      · exact hfields n hn hk
    · exact ((set_perm hfresh m.2).append_left members).trans List.perm_middle

theorem get?_eq_none_iff {key : String} {fields : Fields α} :
    get? key fields = none ↔ key ∉ fields.keys := by
  induction fields with
  | nil => simp [get?, keys]
  | cons m rest ih =>
    by_cases h : m.1 = key
    · simp [get?, keys, h]
    · simp only [get?, h, ↓reduceIte, ih, keys, List.map_cons, List.mem_cons, not_or]
      exact ⟨fun hr => ⟨fun e => h e.symm, hr⟩, fun hr => hr.2⟩

theorem has_iff {key : String} {fields : Fields α} : has key fields = true ↔ key ∈ fields.keys := by
  rw [has, Option.isSome_iff_ne_none, Ne, get?_eq_none_iff, not_not]

theorem mem_keys_iff {key : String} {fields : Fields α} :
    key ∈ fields.keys ↔ ∃ value, get? key fields = some value := by
  rw [← Option.ne_none_iff_exists', Ne, get?_eq_none_iff, not_not]

theorem mem_of_get? {key : String} {value : α} {fields : Fields α}
    (h : get? key fields = some value) : (key, value) ∈ fields := by
  induction fields with
  | nil => cases h
  | cons m rest ih =>
    simp only [get?] at h
    split at h
    · rename_i e
      cases h
      exact List.mem_cons.mpr (.inl (by rw [← e]))
    · exact List.mem_cons_of_mem _ (ih h)

theorem get?_of_mem {fields : Fields α} (h : Sorted fields) {key : String} {value : α}
    (hm : (key, value) ∈ fields) : get? key fields = some value := by
  induction fields with
  | nil => cases hm
  | cons m rest ih =>
    obtain ⟨hlt, hr⟩ := List.pairwise_cons.mp h
    rcases List.mem_cons.mp hm with rfl | hm
    · simp [get?]
    · have hlt' : m.1 < key := hlt key (List.mem_map_of_mem (f := Prod.fst) hm)
      have hne : m.1 ≠ key := fun e => String.lt_irrefl _ (e ▸ hlt')
      simp [get?, hne, ih hr hm]

theorem Sorted.key_ne {before after : Fields α} {m n : String × α}
    (h : Sorted (before ++ m :: after)) (hn : n ∈ before ++ after) : n.1 ≠ m.1 := by
  have hnodup : (keys (before ++ m :: after)).Nodup := h.imp ne_of_lt
  rw [keys, List.map_append, List.map_cons, List.nodup_middle, ← List.map_append] at hnodup
  exact fun he => (List.nodup_cons.mp hnodup).1 (he ▸ List.mem_map_of_mem hn)

theorem get?_filter {key : String} {fields : Fields α} {p : String → Bool} (h : p key = true) :
    get? key (fields.filter fun m => p m.1) = get? key fields := by
  induction fields with
  | nil => rfl
  | cons m fields ih =>
    rw [List.filter_cons]
    by_cases hm : m.1 = key
    · rw [if_pos (by rw [hm, h]), get?, get?, if_pos hm, if_pos hm]
    · rw [get?, if_neg hm, ← ih]
      split
      · rw [get?, if_neg hm]
      · rfl

theorem get?_map {key : String} {fields : Fields α} {f : String → α → β} :
    get? key (fields.map fun m => (m.1, f m.1 m.2)) = (get? key fields).map (f key) := by
  induction fields with
  | nil => rfl
  | cons m fields ih =>
    rw [List.map_cons, get?, get?, ih]
    by_cases hm : m.1 = key
    · rw [if_pos hm, if_pos hm, Option.map_some, hm]
    · rw [if_neg hm, if_neg hm]

theorem set_map (f : α → β) (key : String) (value : α) (fields : Fields α) :
    set key (f value) (fields.map fun m => (m.1, f m.2)) =
      (set key value fields).map fun m => (m.1, f m.2) := by
  induction fields with
  | nil => rfl
  | cons m fields ih =>
    simp only [List.map_cons, set, ih]
    split
    · rfl
    · split <;> rfl

theorem get?_erase_of_ne {key other : String} (h : other ≠ key) (fields : Fields α) :
    get? other (erase key fields) = get? other fields := by
  induction fields with
  | nil => rfl
  | cons m rest ih =>
    rw [erase]
    split
    · rename_i he
      rw [get?, if_neg (by rw [he]; exact h.symm)]
    · rw [get?, get?, ih]

theorem erase_sublist (key : String) (fields : Fields α) : (erase key fields).Sublist fields := by
  induction fields with
  | nil => exact .slnil
  | cons m rest ih =>
    rw [erase]
    split
    · exact List.sublist_cons_self ..
    · exact ih.cons_cons _

theorem Sorted.erase {fields : Fields α} (h : Sorted fields) (key : String) :
    Sorted (Fields.erase key fields) :=
  h.sublist ((erase_sublist key fields).map Prod.fst)

theorem get?_erase_self {fields : Fields α} (h : Sorted fields) (key : String) :
    get? key (erase key fields) = none := by
  induction fields with
  | nil => rfl
  | cons m rest ih =>
    obtain ⟨hlt, hr⟩ := List.pairwise_cons.mp h
    rw [erase]
    split
    · rename_i he
      rw [get?_eq_none_iff]
      exact fun hk => String.lt_irrefl _ (he ▸ hlt key hk)
    · rename_i hne
      rw [get?, if_neg hne, ih hr]

theorem set_set {key : String} {value other : α} {fields : Fields α} :
    set key value (set key other fields) = set key value fields := by
  induction fields with
  | nil => simp [set]
  | cons m rest ih =>
    rw [set, set]
    split
    · simp [set]
    · rename_i hne
      split
      · simp [set]
      · rename_i hlt
        rw [set, if_neg hne, if_neg hlt, ih]

theorem get?_replace_self {key : String} {value old : α} {fields : Fields α}
    (h : get? key fields = some old) : get? key (replace key value fields) = some value := by
  induction fields with
  | nil => cases h
  | cons m rest ih =>
    rw [get?] at h
    rw [replace]
    split
    · rename_i he
      rw [get?, if_pos he]
    · rename_i hne
      rw [if_neg hne] at h
      rw [get?, if_neg hne, ih h]

theorem get?_replace_of_ne {key other : String} (h : other ≠ key) (value : α) {fields : Fields α} :
    get? other (replace key value fields) = get? other fields := by
  induction fields with
  | nil => rfl
  | cons m rest ih =>
    rw [replace]
    split
    · rename_i he
      rw [get?, get?, if_neg (by rw [he]; exact h.symm), if_neg (by rw [he]; exact h.symm)]
    · rw [get?, get?, ih]

theorem keys_replace {key : String} {value : α} {fields : Fields α} :
    (replace key value fields).keys = fields.keys := by
  induction fields with
  | nil => rfl
  | cons m rest ih =>
    rw [replace]
    split
    · rfl
    · exact congrArg (m.1 :: ·) ih

theorem erase_set {key : String} {value : α} {fields : Fields α} (h : key ∉ fields.keys) :
    erase key (set key value fields) = fields := by
  induction fields with
  | nil => simp [set, erase]
  | cons m rest ih =>
    obtain ⟨hm, hrest⟩ := not_or.mp (List.mem_cons.not.mp h)
    rw [set, if_neg (Ne.symm hm)]
    split
    · rw [erase, if_pos rfl]
    · rw [erase, if_neg (Ne.symm hm), ih hrest]

theorem replace_replace {key : String} {value other : α} {fields : Fields α} :
    replace key value (replace key other fields) = replace key value fields := by
  induction fields with
  | nil => rfl
  | cons m rest ih =>
    rw [replace, replace]
    split
    · rename_i he
      rw [replace, if_pos he]
    · rename_i hne
      rw [replace, if_neg hne, ih]

theorem replace_self {key : String} {value : α} {fields : Fields α}
    (h : get? key fields = some value) : replace key value fields = fields := by
  induction fields with
  | nil => rfl
  | cons m rest ih =>
    rw [get?] at h
    rw [replace]
    split
    · rename_i he
      rw [if_pos he] at h
      cases h
      rfl
    · rename_i hne
      rw [if_neg hne] at h
      rw [ih h]

theorem forall₂_of_keys_eq {R : α → β → Prop} {f : Fields α} {g : Fields β} (hs : Sorted f)
    (hk : f.keys = g.keys) (h : ∀ n ∈ g, ∃ a, get? n.1 f = some a ∧ R a n.2) :
    List.Forall₂ (fun m n => m.1 = n.1 ∧ R m.2 n.2) f g := by
  induction f generalizing g with
  | nil =>
    obtain rfl : g = [] := List.map_eq_nil_iff.mp hk.symm
    exact .nil
  | cons m f ih =>
    cases g with
    | nil => cases hk
    | cons n g =>
      obtain ⟨hlt, hsorted⟩ := List.pairwise_cons.mp hs
      obtain ⟨hhead, htail⟩ := List.cons.inj hk
      obtain ⟨⟨a, hg, hr⟩, h⟩ := List.forall_mem_cons.mp h
      have hhead' : m.1 = n.1 := hhead
      simp only [get?, hhead', ↓reduceIte, Option.some.injEq] at hg
      refine .cons ⟨hhead', hg ▸ hr⟩ (ih hsorted htail fun n' hn => ?_)
      obtain ⟨a, hg, hr⟩ := h n' hn
      have hn' : n'.1 ∈ g.map Prod.fst := List.mem_map_of_mem hn
      have hne : m.1 ≠ n'.1 := fun e =>
        String.lt_irrefl _ (e ▸ hlt n'.1 (htail.symm ▸ hn'))
      rw [get?, if_neg hne] at hg
      exact ⟨a, hg, hr⟩

theorem eq_of_get?_eq {f g : Fields α} (hf : Sorted f) (hg : Sorted g)
    (h : ∀ key, get? key f = get? key g) : f = g := by
  have hkeys : f.keys = g.keys := List.Pairwise.eq_of_mem_iff hf hg fun key => by
    rw [mem_keys_iff, mem_keys_iff, h]
  have hpairs := forall₂_of_keys_eq (R := Eq) hf hkeys fun n hn =>
    ⟨n.2, (h n.1).trans (get?_of_mem hg hn), rfl⟩
  exact List.forall₂_eq_eq_eq ▸ hpairs.imp fun m n hmn => Prod.ext hmn.1 hmn.2

theorem set_eq_self {key : String} {value : α} {fields : Fields α} (hs : Sorted fields)
    (h : get? key fields = some value) : set key value fields = fields := by
  apply eq_of_get?_eq (hs.set key value) hs
  intro other
  by_cases ho : other = key
  · rw [ho, get?_set_self, h]
  · rw [get?_set_of_ne ho]

theorem keys_eq_of_forall₂ {R : α → β → Prop} {f : Fields α} {g : Fields β}
    (h : List.Forall₂ (fun m n => m.1 = n.1 ∧ R m.2 n.2) f g) : f.keys = g.keys := by
  induction h with
  | nil => rfl
  | cons hm _ ih => exact List.cons_eq_cons.mpr ⟨hm.1, ih⟩

/-- Members that have one to go with them each have one of their own. -/
theorem exists_subperm_forall₂ {R : α → β → Prop} {f : Fields α} {g : Fields β} (hg : Sorted g)
    (h : ∀ n ∈ g, ∃ a, get? n.1 f = some a ∧ R a n.2) :
    ∃ chosen : Fields α, chosen.Subperm f ∧
      List.Forall₂ (fun m n => m.1 = n.1 ∧ R m.2 n.2) chosen g := by
  obtain ⟨chosen, hmem, hpairs⟩ : ∃ chosen : Fields α, chosen ⊆ f ∧
      List.Forall₂ (fun m n => m.1 = n.1 ∧ R m.2 n.2) chosen g := by
    clear hg
    induction g with
    | nil => exact ⟨[], List.nil_subset f, .nil⟩
    | cons n g ih =>
      obtain ⟨⟨a, hget, hr⟩, hg⟩ := List.forall_mem_cons.mp h
      obtain ⟨chosen, hmem, hpairs⟩ := ih hg
      exact ⟨(n.1, a) :: chosen, List.cons_subset.mpr ⟨mem_of_get? hget, hmem⟩,
        .cons ⟨rfl, hr⟩ hpairs⟩
  have hsorted : Sorted chosen := by rwa [Sorted, keys_eq_of_forall₂ hpairs]
  have hnodup : chosen.keys.Nodup := hsorted.imp ne_of_lt
  exact ⟨chosen, List.subperm_of_subset hnodup.of_map hmem, hpairs⟩

theorem keys_eq_of_mem_iff {f : Fields α} {g : Fields β} (hf : Sorted f) (hg : Sorted g)
    (h : ∀ key, key ∈ f.keys ↔ key ∈ g.keys) : f.keys = g.keys :=
  List.Pairwise.eq_of_mem_iff hf hg h

end ApiContract.Fields
