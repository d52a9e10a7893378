namespace ApiContract

/-- Members under text keys, in the order of the keys' code points. -/
abbrev Fields (α : Type) := List (String × α)

namespace Fields

variable {α : Type}

def get? (key : String) : Fields α → Option α
  | [] => none
  | (k, v) :: rest => if k = key then some v else get? key rest

/-- A key that is there takes the new value; another comes in at its place in the order. -/
def set (key : String) (value : α) : Fields α → Fields α
  | [] => [(key, value)]
  | (k, v) :: rest =>
    if k = key then (key, value) :: rest
    else if key < k then (key, value) :: (k, v) :: rest
    else (k, v) :: set key value rest

def erase (key : String) : Fields α → Fields α
  | [] => []
  | (k, v) :: rest => if k = key then rest else (k, v) :: erase key rest

def replace (key : String) (value : α) : Fields α → Fields α
  | [] => []
  | (k, v) :: rest => if k = key then (k, value) :: rest else (k, v) :: replace key value rest

def has (key : String) (fields : Fields α) : Bool := (get? key fields).isSome

def keys (fields : Fields α) : List String := fields.map Prod.fst

/-- Of members with the same key the last one stays. -/
def ofList (members : List (String × α)) : Fields α :=
  members.foldl (fun fields m => set m.1 m.2 fields) []

def Sorted (fields : Fields α) : Prop := fields.keys.Pairwise (· < ·)

theorem get?_set_self (key : String) (value : α) (fields : Fields α) :
    get? key (set key value fields) = some value := by
  induction fields with
  | nil => simp [set, get?]
  | cons m rest ih =>
    simp only [set]
    split
    · simp [get?]
    · split
      · simp [get?]
      · simp_all [get?]

theorem get?_set_of_ne {key other : String} (h : other ≠ key) (value : α) (fields : Fields α) :
    get? other (set key value fields) = get? other fields := by
  induction fields with
  | nil => simp [set, get?, Ne.symm h]
  | cons m rest ih =>
    simp only [set]
    split
    · simp_all [get?, Ne.symm h]
    · split
      · simp [get?, Ne.symm h]
      · simp [get?, ih]

theorem mem_keys_set {k key : String} {value : α} {fields : Fields α}
    (h : k ∈ (set key value fields).keys) : k = key ∨ k ∈ fields.keys := by
  induction fields with
  | nil => simpa [set, keys] using h
  | cons m rest ih =>
    simp only [set] at h
    split at h
    · simp_all [keys]
    · split at h
      · simpa [keys] using h
      · rcases List.mem_cons.mp h with e | e
        · exact .inr (by simp [keys, e])
        · exact (ih e).imp_right fun e => List.mem_cons_of_mem _ e

theorem Sorted.set {fields : Fields α} (h : Sorted fields) (key : String) (value : α) :
    Sorted (Fields.set key value fields) := by
  induction fields with
  | nil => simp [Sorted, Fields.set, keys]
  | cons m rest ih =>
    obtain ⟨hm, hr⟩ := List.pairwise_cons.mp h
    simp only [Fields.set]
    split
    · rename_i e
      exact List.pairwise_cons.mpr ⟨by simpa [e] using hm, hr⟩
    · split
      · rename_i lt
        refine List.pairwise_cons.mpr ⟨fun k hk => ?_, h⟩
        rcases List.mem_cons.mp hk with rfl | hk
        · exact lt
        · exact String.lt_trans lt (hm k hk)
      · rename_i ne nlt
        refine List.pairwise_cons.mpr ⟨fun k hk => ?_, ih hr⟩
        rcases mem_keys_set hk with rfl | hk
        · exact String.not_le.mp fun le => ne (String.le_antisymm (String.not_lt.mp nlt) le)
        · exact hm k hk

theorem sorted_ofList (members : List (String × α)) : Sorted (ofList members) := by
  suffices ∀ fields : Fields α, Sorted fields →
      Sorted (members.foldl (fun fields m => set m.1 m.2 fields) fields) from
    this [] (by simp [Sorted, keys])
  induction members with
  | nil => exact fun _ h => h
  | cons m members ih => exact fun fields h => ih _ (h.set m.1 m.2)

end Fields

end ApiContract
