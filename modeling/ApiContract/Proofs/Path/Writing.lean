import Mathlib.Data.List.Basic
import ApiContract.Path
import ApiContract.Proofs.Text.Ends

namespace ApiContract

def Segment.Regular : Segment → Prop
  | .key name => Identifier.isValid name.toList = true
  | .index position => position < Segment.indexLimit

/-- A path that can be written: it leads somewhere, and its segments can be told apart. -/
structure Path.Regular (path : Path) : Prop where
  ne_nil : path ≠ []
  segments : ∀ segment ∈ path, segment.Regular

namespace Identifier

theorem exists_cons_of_isValid {s : List Char} (h : isValid s = true) :
    ∃ c t, s = c :: t ∧ isStart c = true ∧ ∀ d ∈ t, isPart d = true := by
  cases s with
  | nil => cases h
  | cons c t =>
    simp only [isValid, Bool.and_eq_true, List.all_eq_true] at h
    exact ⟨c, t, rfl, h⟩

theorem isPart_of_isStart {c : Char} (h : isStart c = true) : isPart c = true := by
  simp [isPart, h]

theorem isPart_of_isDigit {c : Char} (h : c.isDigit = true) : isPart c = true := by
  simp [isPart, h]

theorem isPart_of_mem {s : List Char} (h : isValid s = true) {c : Char} (hc : c ∈ s) :
    isPart c = true := by
  obtain ⟨a, t, rfl, ha, ht⟩ := exists_cons_of_isValid h
  rcases List.mem_cons.mp hc with rfl | hc
  · exact isPart_of_isStart ha
  · exact ht c hc

theorem isStart_of_isDigit {c : Char} (h : c.isDigit = true) : isStart c = false := by
  obtain ⟨h₁, h₂⟩ : 48 ≤ c.toNat ∧ c.toNat ≤ 57 :=
    ((Bool.and_eq_true _ _).mp h).imp of_decide_eq_true of_decide_eq_true
  by_contra hs
  have hs : (c.isUpper || c.isLower || c == '_' || c == '$') = true := Bool.not_eq_false _ ▸ hs
  simp only [Bool.or_eq_true, beq_iff_eq] at hs
  rcases hs with ((hu | hl) | rfl) | rfl
  · have : 65 ≤ c.toNat ∧ c.toNat ≤ 90 := of_decide_eq_true hu
    omega
  · have : 97 ≤ c.toNat ∧ c.toNat ≤ 122 :=
      ((Bool.and_eq_true _ _).mp hl).imp of_decide_eq_true of_decide_eq_true
    omega
  · simp at h₂
  · simp at h₁

theorem take?_append {name rest : List Char} (hn : isValid name = true)
    (hr : ∀ c ∈ rest.head?, isPart c = false) : take? (name ++ rest) = some (name, rest) := by
  obtain ⟨c, tail, rfl, hc, ht⟩ := exists_cons_of_isValid hn
  obtain ⟨h₁, h₂⟩ := Text.takeWhile_append_of_head ht hr
  simp [take?, hc, h₁, h₂]

theorem not_isPart_dot : isPart '.' = false := by decide

end Identifier

namespace Segment

theorem text_index (n : Nat) : (text (index n)).toList = Nat.toDigits 10 n := by
  simp [text]

theorem isPart_of_mem_text {segment : Segment} (h : segment.Regular) {c : Char}
    (hc : c ∈ segment.text.toList) : Identifier.isPart c = true := by
  cases segment with
  | key name => exact Identifier.isPart_of_mem h hc
  | index n =>
    rw [text_index] at hc
    exact Identifier.isPart_of_isDigit (Nat.isDigit_of_mem_toDigits (by decide) (by decide) hc)

theorem text_ne_nil {segment : Segment} (h : segment.Regular) : segment.text.toList ≠ [] := by
  cases segment with
  | key name =>
    obtain ⟨c, t, hs, -⟩ := Identifier.exists_cons_of_isValid h
    simp [text, hs]
  | index n =>
    rw [text_index]
    exact Nat.toDigits_ne_nil

theorem dot_notMem_text {segment : Segment} (h : segment.Regular) : '.' ∉ segment.text.toList :=
  fun hc => by simpa [Identifier.not_isPart_dot] using isPart_of_mem_text h hc

theorem not_all_isDigit_of_isValid {s : List Char} (h : Identifier.isValid s = true) :
    s.all Char.isDigit = false := by
  obtain ⟨c, t, rfl, hc, -⟩ := Identifier.exists_cons_of_isValid h
  cases hd : c.isDigit with
  | false => simp [hd]
  | true => simp [Identifier.isStart_of_isDigit hd] at hc

theorem ofChars?_text {segment : Segment} (h : segment.Regular) :
    ofChars? segment.text.toList = some segment := by
  cases segment with
  | key name =>
    have hd := not_all_isDigit_of_isValid h
    have hv : Identifier.isValid name.toList = true := h
    simp [ofChars?, text, hd, hv]
  | index n =>
    have hn : n < indexLimit := h
    have hd : (Nat.toDigits 10 n).all Char.isDigit = true :=
      List.all_eq_true.mpr fun c hc => Nat.isDigit_of_mem_toDigits (by decide) (by decide) hc
    have he : (Nat.toDigits 10 n).isEmpty = false := by simp [Nat.toDigits_ne_nil]
    rw [text_index]
    simp [ofChars?, hd, he, hn]

theorem regular_of_ofChars? {s : List Char} {segment : Segment} (h : ofChars? s = some segment) :
    segment.Regular := by
  simp only [ofChars?] at h
  split at h
  · split at h
    · rename_i hn
      cases h
      exact hn
    · cases h
  · split at h
    · rename_i hv
      cases h
      simpa [Regular] using hv
    · cases h

end Segment

namespace Path

theorem toList_text (path : Path) :
    path.text.toList = Text.joined '.' (path.map fun segment => segment.text.toList) := by
  induction path with
  | nil => rfl
  | cons segment path ih =>
    cases path with
    | nil => simp [text, Text.joined]
    | cons next path =>
      have hs : text (segment :: next :: path) = segment.text ++ "." ++ text (next :: path) := by
        simp [text, String.intercalate_cons_cons]
      rw [hs]
      simp only [String.toList_append, ih, List.map_cons, Text.joined]
      simp

theorem mapM_ofChars?_eq {path : Path} (h : ∀ segment ∈ path, segment.Regular) :
    (path.map fun segment => segment.text.toList).mapM Segment.ofChars? = some path := by
  induction path with
  | nil => rfl
  | cons segment path ih =>
    have hs := Segment.ofChars?_text (h segment (by simp))
    have hp := ih fun s hs => h s (by simp [hs])
    simp [hs, hp]

theorem regular_of_mapM {pieces : List (List Char)} {path : Path}
    (h : pieces.mapM Segment.ofChars? = some path) :
    (∀ segment ∈ path, segment.Regular) ∧ path.length = pieces.length := by
  induction pieces generalizing path with
  | nil =>
    cases h
    simp
  | cons piece pieces ih =>
    simp only [List.mapM_cons, Option.bind_eq_bind, Option.bind_eq_some_iff, Option.pure_def,
      Option.some.injEq] at h
    obtain ⟨segment, hs, rest, hr, rfl⟩ := h
    obtain ⟨hall, hlen⟩ := ih hr
    refine ⟨fun s hm => ?_, by simp [hlen]⟩
    rcases List.mem_cons.mp hm with rfl | hm
    · exact Segment.regular_of_ofChars? hs
    · exact hall s hm

theorem ofChars?_written {path : Path} (h : path.Regular) :
    ofChars? path.text.toList = some path := by
  have hdots : ∀ p ∈ path.map (fun segment => segment.text.toList), '.' ∉ p := by
    intro p hp
    obtain ⟨segment, hs, rfl⟩ := List.mem_map.mp hp
    exact Segment.dot_notMem_text (h.segments segment hs)
  rw [ofChars?, toList_text, Text.pieces_joined (by simpa using h.ne_nil) hdots]
  exact mapM_ofChars?_eq h.segments

theorem regular_of_ofChars? {s : List Char} {path : Path} (h : ofChars? s = some path) :
    path.Regular := by
  obtain ⟨hall, hlen⟩ := regular_of_mapM h
  refine ⟨fun hnil => ?_, hall⟩
  have hp := Text.pieces_ne_nil '.' s
  rw [hnil] at hlen
  exact hp (List.length_eq_zero_iff.mp hlen.symm)

theorem regular_iff_reads {path : Path} :
    path.Regular ↔ path ≠ [] ∧ ofString? path.text = some path :=
  ⟨fun h => ⟨h.ne_nil, ofChars?_written h⟩, fun h => regular_of_ofChars? h.2⟩

theorem eq_of_text_eq {p q : Path} (hp : p.Regular) (hq : q.Regular) (h : p.text = q.text) :
    p = q := by
  have hr := ofChars?_written hp
  rw [h, ofChars?_written hq] at hr
  exact (Option.some.inj hr).symm

end Path

end ApiContract
