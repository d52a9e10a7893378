import Mathlib.Data.List.DropRight
import ApiContract.Text.Blank

namespace ApiContract.Text

theorem takeWhile_append_of_head {α : Type} {p : α → Bool} {a b : List α}
    (ha : ∀ x ∈ a, p x = true) (hb : ∀ x ∈ b.head?, p x = false) :
    (a ++ b).takeWhile p = a ∧ (a ++ b).dropWhile p = b := by
  rw [List.takeWhile_append_of_pos ha, List.dropWhile_append_of_pos ha]
  cases b with
  | nil => simp
  | cons x b => simp [hb x (by simp)]

/-- A text that shows something and has no blank at either end. -/
structure Tight (s : List Char) : Prop where
  ne_nil : s ≠ []
  head : ∀ c ∈ s.head?, isBlank c = false
  last : ∀ c ∈ s.getLast?, isBlank c = false

theorem Tight.keyword {s : List Char} (hne : s ≠ []) (h : s.all (!isBlank ·) = true) :
    Tight s := by
  have hall : ∀ c ∈ s, isBlank c = false := by simpa using h
  exact ⟨hne, fun c hc => hall c (List.mem_of_mem_head? hc),
    fun c hc => hall c (List.mem_of_getLast? hc)⟩

theorem trimEnd_eq_rdropWhile (s : List Char) : trimEnd s = s.rdropWhile isBlank := rfl

theorem trimEnd_isPrefix (s : List Char) : trimEnd s <+: s := List.rdropWhile_prefix isBlank s

theorem trim_isInfix (s : List Char) : trim s <:+: s := by
  have hs : trimStart s <:+ s := List.dropWhile_suffix isBlank
  exact (trimEnd_isPrefix (trimStart s)).isInfix.trans hs.isInfix

theorem mem_of_mem_trim {c : Char} {s : List Char} (h : c ∈ trim s) : c ∈ s :=
  (trim_isInfix s).mem h

theorem head_trimStart (s : List Char) : ∀ c ∈ (trimStart s).head?, isBlank c = false := by
  intro c hc
  have h := List.head?_dropWhile_not isBlank s
  rw [trimStart] at hc
  rw [Option.mem_def.mp hc] at h
  simpa using h

theorem last_trimEnd (s : List Char) : ∀ c ∈ (trimEnd s).getLast?, isBlank c = false := by
  intro c hc
  have hr : (trimEnd s).getLast? = (trimStart s.reverse).head? := by
    simp [trimEnd, trimStart]
  exact head_trimStart s.reverse c (hr ▸ hc)

theorem head_of_isPrefix {p s : List Char} (h : p <+: s) : ∀ c ∈ p.head?, c ∈ s.head? := by
  obtain ⟨t, rfl⟩ := h
  intro c hc
  cases p with
  | nil => cases hc
  | cons a p => exact hc

theorem head_trim (s : List Char) : ∀ c ∈ (trim s).head?, isBlank c = false := fun c hc =>
  head_trimStart s c (head_of_isPrefix (trimEnd_isPrefix (trimStart s)) c hc)

theorem last_trim (s : List Char) : ∀ c ∈ (trim s).getLast?, isBlank c = false :=
  last_trimEnd (trimStart s)

theorem trim_ne_nil {s : List Char} {c : Char} (hc : c ∈ s.head?)
    (hb : isBlank c = false) : trim s ≠ [] := by
  have hstart : trimStart s = s := trimStart_eq_self fun d hd =>
    Option.mem_unique hc hd ▸ hb
  intro htrim
  rw [trim, hstart, trimEnd_eq_rdropWhile, List.rdropWhile_eq_nil_iff] at htrim
  rw [htrim c (List.mem_of_mem_head? hc)] at hb
  cases hb

theorem trim_eq_self {s : List Char} (hh : ∀ c ∈ s.head?, isBlank c = false)
    (hl : ∀ c ∈ s.getLast?, isBlank c = false) : trim s = s := by
  rw [trim, trimStart_eq_self hh, trimEnd_eq_self hl]

theorem trim_trim (s : List Char) : trim (trim s) = trim s :=
  trim_eq_self (head_trim s) (last_trim s)

theorem tight_trim {s : List Char} (h : trim s ≠ []) : Tight (trim s) :=
  ⟨h, head_trim s, last_trim s⟩

theorem Tight.trim {s : List Char} (h : Tight s) : Text.trim s = s := trim_eq_self h.head h.last

theorem tight_of_trim {s : List Char} (h : trim s = s) (hs : s ≠ []) : Tight s := by
  rw [← h] at hs ⊢
  exact tight_trim hs

theorem trim_cons_of_blank {c : Char} (h : isBlank c = true) (s : List Char) :
    trim (c :: s) = trim s := by
  simp [trim, trimStart, h]

theorem Tight.between {a b : List Char} (ha : Tight a) (hb : Tight b) (middle : List Char) :
    Tight (a ++ middle ++ b) where
  ne_nil := by simp [ha.ne_nil]
  head c hc := ha.head c (by
    rwa [List.append_assoc, List.head?_append_of_ne_nil _ ha.ne_nil] at hc)
  last c hc := hb.last c (by rwa [List.getLast?_append_of_ne_nil _ hb.ne_nil] at hc)

end ApiContract.Text
