import ApiContract.Proofs.Comparison.Claims
import ApiContract.Proofs.Value.Data
import ApiContract.Proofs.Value.Parts

namespace ApiContract

namespace Value

def Definite : Value → Prop
  | type _ => False
  | _ => True

def Untyped (value : Value) : Prop := Throughout parts Definite value

theorem Plain.untyped {value : Value} (h : value.Plain) : value.Untyped :=
  Throughout.mono h fun value hv => by
    cases value with
    | type kind => exact hv.elim
    | _ => trivial

end Value

namespace Comparison

variable {s : Strictness} {path : String} {index : Nat} {candidates : List (Value × Nat)}
  {actual expected : Value} {found items : List Value}

def Fits (s : Strictness) (actual expected : Value) : Prop :=
  ∀ path, compareAt s path actual expected = .ok ()

theorem claim_cons_of_fits {c : Value × Nat} {item : Value} (h : Fits s c.1 item) :
    claim s path index (c :: candidates) (item :: items) = .ok () ↔
      claim s path (index + 1) candidates items = .ok () := by
  rw [claim_of_takes (.here (h _))]

theorem claim_of_fits {rest : List (Value × Nat)}
    (h : List.Forall₂ (Fits s) (candidates.map Prod.fst) items) :
    claim s path index (candidates ++ rest) items = .ok () := by
  induction items generalizing candidates index with
  | nil => rw [claim]
  | cons item items ih =>
    cases candidates with
    | nil => cases h
    | cons c candidates =>
      obtain ⟨hfirst, hrest⟩ := List.forall₂_cons.mp h
      exact (claim_cons_of_fits hfirst).mpr (ih hrest)

theorem compareItems_of_fits (h : List.Forall₂ (Fits s) found items) :
    compareItems s path index found items = .ok () := by
  induction h generalizing index with
  | nil => rw [compareItems]; simp
  | cons hfirst _ ih => rw [compareItems, seq_eq_ok_iff]; exact ⟨hfirst _, ih⟩

theorem forall₂_fits_map {f : Value → Value} (h : ∀ item ∈ items, Fits s (f item) item) :
    List.Forall₂ (Fits s) (items.map f) items :=
  List.forall₂_map_left_iff.mpr (List.forall₂_same.mpr h)

theorem fits_array (rest : List Value) (hi : Items actual (found ++ rest))
    (h : List.Forall₂ (Fits s) found items) (hr : s.strict = true → rest = []) :
    Fits s actual (.array items) := fun path => by
  have hlength := h.length_eq
  have hitems : itemsFor s actual items.length path = .ok (found ++ rest) := by
    refine itemsFor_eq_ok_iff.mpr ⟨hi, ?_, fun hs => ?_⟩
    · rw [List.length_append]
      omega
    · rw [hr hs, List.append_nil, hlength]
  refine compareAt_array_eq_ok_iff.mpr ⟨_, hitems, ?_⟩
  rw [List.zipIdx_append]
  exact claim_of_fits (by rwa [List.zipIdx_map_fst])

theorem fits_ordered (hi : Items actual found) (h : List.Forall₂ (Fits s) found items) :
    Fits s actual (.ordered items) := fun _ =>
  compareAt_ordered_eq_ok_iff.mpr ⟨found,
    itemsFor_eq_ok_iff.mpr ⟨hi, h.length_eq.ge, fun _ => h.length_eq⟩, compareItems_of_fits h⟩

theorem fits_object {members fields : Fields Value}
    (h : ∀ m ∈ fields, ∃ a, Fields.get? m.1 members = some a ∧ Fits s a m.2)
    (hk : s.strict = true → ∀ key ∈ members.keys, key ∈ fields.keys) :
    Fits s (.object members) (.object fields) := by
  intro path
  refine compareAt_object_eq_ok_iff.mpr ⟨_, rfl, compareFields_eq_ok_iff.mpr fun m hm => ?_,
    surplusKey?_eq_none_iff.mpr fun hs key hkey => .inl (hk hs key hkey)⟩
  obtain ⟨a, hget, hfits⟩ := h m hm
  exact ⟨a, hget, hfits _⟩

theorem fits_object_map {fields : Fields Value} {f : Value → Value} (hs : Fields.Sorted fields)
    (h : ∀ m ∈ fields, Fits s (f m.2) m.2) :
    Fits s (.object (fields.map fun m => (m.1, f m.2))) (.object fields) := by
  refine fits_object (fun m hm => ⟨f m.2, ?_, h m hm⟩) fun _ key hk => ?_
  · rw [Fields.get?_map (f := fun _ => f), Fields.get?_of_mem hs hm, Option.map_some]
  · rw [Fields.keys, List.map_map] at hk
    exact hk

theorem fits_self {v : Value} (hu : v.Untyped) (ht : v.Tidy) :
    Fits s (Value.ofJson v.toJson) v ∧ Fits s v v := by
  induction v using Value.induction_on_parts with
  | step v ih =>
    have hback : ∀ part ∈ v.parts, Fits s (Value.ofJson part.toJson) part :=
      fun part hm => (ih part hm (hu.parts hm) (ht.parts hm)).1
    have hsame : ∀ part ∈ v.parts, Fits s part part :=
      fun part hm => (ih part hm (hu.parts hm) (ht.parts hm)).2
    cases v with
    | type kind => exact hu.here.elim
    | array items =>
      rw [Value.toJson, Value.ofJson, Value.itemsOfJson_itemsToJson]
      exact ⟨fits_array [] (by simp [Items]) (forall₂_fits_map hback) fun _ => rfl,
        fits_array [] (by simp [Items]) (List.forall₂_same.mpr hsame) fun _ => rfl⟩
    | ordered items =>
      rw [Value.toJson, Value.ofJson, Value.itemsOfJson_itemsToJson]
      exact ⟨fits_ordered (.inl rfl) (forall₂_fits_map hback),
        fits_ordered (.inr rfl) (List.forall₂_same.mpr hsame)⟩
    | object fields =>
      rw [Value.toJson, Value.ofJson, Value.fieldsOfJson_fieldsToJson]
      have hs : Fields.Sorted fields := ht.here
      refine ⟨fits_object_map (f := fun v => Value.ofJson v.toJson) hs fun m hm =>
        hback m.2 (List.mem_map_of_mem hm), fits_object (fun m hm => ?_) fun _ _ hk => hk⟩
      exact ⟨m.2, Fields.get?_of_mem hs hm, hsame m.2 (List.mem_map_of_mem hm)⟩
    | number n =>
      have hn : Fits s (.number n) (.number n) := fun path => by
        rw [compareAt, compareScalar_eq_ok_iff]
        exact Number.sameValue_iff.mpr (.refl n)
      exact ⟨hn, hn⟩
    | _ =>
      constructor <;> intro path <;> rw [compareAt, compareScalar_eq_ok_iff] <;>
        simp [sameScalar, Value.normal, Value.toJson, Value.ofJson]

end Comparison

/-- What is sent and comes back unchanged matches its own template, and so does the value itself. -/
theorem compareValues_returned (s : Strictness) {v : Value} (hu : v.Untyped) (ht : v.Tidy) :
    compareValues s (Value.ofJson v.toJson) v = .ok () ∧ compareValues s v v = .ok () :=
  ⟨(Comparison.fits_self hu ht).1 "", (Comparison.fits_self hu ht).2 ""⟩

theorem compareValues_returned_of_marked :
    let v : Value := .object [("", .ordered [.id "x", .array [.id "x", .null]]), ("_id", .id "y")]
    v.Untyped ∧ v.Tidy ∧ ∀ strict,
      compareValues ⟨strict, ["_id"]⟩
        (.object [("", .array [.string "x", .array [.string "x", .null]]), ("_id", .string "y")])
        v = .ok () ∧
      compareValues ⟨strict, ["_id"]⟩ v v = .ok () := by
  intro v
  have hu : v.Untyped := by
    simp [v, Value.Untyped, Value.Definite]
  have ht : v.Tidy := by
    refine Value.throughout_object.mpr ⟨List.pairwise_pair.mpr (by decide), ?_⟩
    simp [Value.Keyed]
  exact ⟨hu, ht, fun strict => compareValues_returned ⟨strict, ["_id"]⟩ hu ht⟩

end ApiContract
