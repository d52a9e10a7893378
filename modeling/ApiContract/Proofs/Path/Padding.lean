import Mathlib.Logic.Relator
import ApiContract.Proofs.Path.Writing

namespace ApiContract

section Digits

variable {digits : List Char}

theorem digitChar_of_isDigit {c : Char} (h : c.isDigit = true) :
    c.toNat - '0'.toNat < 10 ∧ (c.toNat - '0'.toNat).digitChar = c := by
  obtain ⟨h₁, h₂⟩ : 48 ≤ c.toNat ∧ c.toNat ≤ 57 :=
    ((Bool.and_eq_true _ _).mp h).imp of_decide_eq_true of_decide_eq_true
  have hlt : c.toNat - '0'.toNat < 10 := by
    have hzero : '0'.toNat = 48 := rfl
    omega
  refine ⟨hlt, Char.toNat_inj.mp ?_⟩
  rw [Nat.toNat_digitChar_of_lt_ten hlt]
  exact Nat.add_sub_cancel' h₁

theorem toDigits_ofDigitChars (h : ∀ c ∈ digits, c.isDigit = true) {n : Nat} (hn : 0 < n) :
    Nat.toDigits 10 (Nat.ofDigitChars 10 digits n) = Nat.toDigits 10 n ++ digits := by
  induction digits generalizing n with
  | nil => rw [Nat.ofDigitChars_nil, List.append_nil]
  | cons c digits ih =>
    obtain ⟨hc, hdigits⟩ := List.forall_mem_cons.mp h
    obtain ⟨hlt, hchar⟩ := digitChar_of_isDigit hc
    rw [Nat.ofDigitChars_cons, ih hdigits (by omega),
      ← Nat.toDigits_append_toDigits (by decide) hn hlt, Nat.toDigits_of_lt_base hlt, hchar,
      List.append_assoc]
    rfl

theorem ofDigitChars_dropWhile (digits : List Char) :
    Nat.ofDigitChars 10 (digits.dropWhile (· == '0')) 0 = Nat.ofDigitChars 10 digits 0 := by
  induction digits with
  | nil => rfl
  | cons c digits ih =>
    rw [List.dropWhile_cons]
    split
    · rename_i hc
      obtain rfl := beq_iff_eq.mp hc
      exact ih
    · rfl

end Digits

namespace Segment

def bare : Segment → List Char
  | key name => name.toList
  | index position => if position = 0 then [] else Nat.toDigits 10 position

def unpadded (s : List Char) : List Char :=
  if s.all Char.isDigit then s.dropWhile (· == '0') else s

theorem all_isDigit_bare_index (n : Nat) : (bare (index n)).all Char.isDigit = true := by
  rw [bare]
  split
  · rfl
  · exact List.all_eq_true.mpr fun c hc => Nat.isDigit_of_mem_toDigits (by decide) (by decide) hc

theorem bare_index_inj {m n : Nat} (h : bare (index m) = bare (index n)) : m = n := by
  have hread : ∀ n, Nat.ofDigitChars 10 (bare (index n)) 0 = n := by
    intro n
    rw [bare]
    split
    · rename_i hn
      exact hn.symm
    · exact Nat.ofDigitChars_toDigits (by decide) (by decide)
  rw [← hread m, h, hread n]

theorem bare_inj {a b : Segment} (ha : a.Regular) (hb : b.Regular) (h : a.bare = b.bare) :
    a = b := by
  have hkey : ∀ {name n}, Regular (key name) → bare (key name) ≠ bare (index n) :=
    fun hname he => by
      have hdigits := he ▸ all_isDigit_bare_index _
      rw [bare, not_all_isDigit_of_isValid hname] at hdigits
      cases hdigits
  cases a with
  | key name =>
    cases b with
    | key other => rw [String.toList_inj.mp h]
    | index n => exact absurd h (hkey ha)
  | index m =>
    cases b with
    | key other => exact absurd h.symm (hkey hb)
    | index n => rw [bare_index_inj h]

theorem dropWhile_zeros {s : List Char} (h : s.all Char.isDigit = true) :
    s.dropWhile (· == '0') = bare (index (Nat.ofDigitChars 10 s 0)) := by
  rw [← ofDigitChars_dropWhile]
  have hfirst := List.head?_dropWhile_not (· == '0') s
  have hall : ∀ c ∈ s.dropWhile (· == '0'), c.isDigit = true := fun c hc =>
    List.all_eq_true.mp h c ((List.dropWhile_sublist _).subset hc)
  cases hs : s.dropWhile (· == '0') with
  | nil => rfl
  | cons c digits =>
    rw [hs] at hfirst hall
    obtain ⟨hc, hdigits⟩ := List.forall_mem_cons.mp hall
    obtain ⟨hlt, hchar⟩ := digitChar_of_isDigit hc
    have hpos : 0 < c.toNat - '0'.toNat := by
      refine Nat.pos_of_ne_zero fun hzero => ?_
      rw [hzero] at hchar
      simp [← hchar] at hfirst
    have hn : Nat.toDigits 10 (Nat.ofDigitChars 10 (c :: digits) 0) = c :: digits := by
      rw [Nat.ofDigitChars_cons, Nat.mul_zero, Nat.zero_add, toDigits_ofDigitChars hdigits hpos,
        Nat.toDigits_of_lt_base hlt, hchar]
      rfl
    have hne : Nat.ofDigitChars 10 (c :: digits) 0 ≠ 0 := by
      intro hzero
      rw [hzero, Nat.toDigits_of_lt_base (by decide)] at hn
      obtain ⟨rfl, -⟩ := List.cons.inj hn
      exact absurd hpos (by decide)
    rw [bare, if_neg hne, hn]

theorem unpadded_of_ofChars? {s : List Char} {segment : Segment} (h : ofChars? s = some segment) :
    unpadded s = segment.bare := by
  unfold ofChars? at h
  split at h
  · rename_i hs
    obtain ⟨-, hdigits⟩ := (Bool.and_eq_true _ _).mp hs
    simp only at h
    split at h
    · cases h
      rw [unpadded, if_pos hdigits, dropWhile_zeros hdigits]
    · cases h
  · split at h
    · rename_i hv
      cases h
      rw [unpadded, not_all_isDigit_of_isValid hv]
      exact String.toList_ofList.symm
    · cases h

end Segment

namespace Path

/-- The pieces of a path without the zeros that its indices begin with. -/
def unpadded (s : List Char) : List (List Char) := (Text.pieces '.' s).map Segment.unpadded

theorem unpadded_of_mapM {pieces : List (List Char)} {path : Path}
    (h : pieces.mapM Segment.ofChars? = some path) :
    pieces.map Segment.unpadded = path.map Segment.bare := by
  induction pieces generalizing path with
  | nil =>
    cases h
    rfl
  | cons piece pieces ih =>
    simp only [List.mapM_cons, Option.bind_eq_bind, Option.bind_eq_some_iff, Option.pure_def,
      Option.some.injEq] at h
    obtain ⟨segment, hs, rest, hr, rfl⟩ := h
    rw [List.map_cons, List.map_cons, Segment.unpadded_of_ofChars? hs, ih hr]

theorem map_bare_inj {p q : Path} (hp : ∀ segment ∈ p, segment.Regular)
    (hq : ∀ segment ∈ q, segment.Regular) (h : p.map Segment.bare = q.map Segment.bare) :
    p = q := by
  induction p generalizing q with
  | nil => exact (List.map_eq_nil_iff.mp h.symm).symm
  | cons a p ih =>
    obtain ⟨b, rest, rfl, hb, hrest⟩ := List.map_eq_cons_iff.mp h.symm
    obtain ⟨ha, hp⟩ := List.forall_mem_cons.mp hp
    obtain ⟨hb', hrest'⟩ := List.forall_mem_cons.mp hq
    rw [Segment.bare_inj ha hb' hb.symm, ih hp hrest' hrest.symm]

/-- Texts are read as the same path if and only if they are the same but for padding. -/
theorem eq_iff_unpadded_eq {s t : List Char} {p q : Path} (hp : ofChars? s = some p)
    (hq : ofChars? t = some q) : p = q ↔ unpadded s = unpadded t := by
  have hs : unpadded s = p.map Segment.bare := unpadded_of_mapM hp
  have ht : unpadded t = q.map Segment.bare := unpadded_of_mapM hq
  rw [hs, ht]
  exact ⟨congrArg _, map_bare_inj (regular_of_ofChars? hp).segments
    (regular_of_ofChars? hq).segments⟩

theorem biUnique_unpadded :
    Relator.BiUnique fun (path : Path) bare => ∃ s, ofChars? s = some path ∧ unpadded s = bare := by
  constructor
  · rintro p q _ ⟨s, hp, rfl⟩ ⟨t, hq, he⟩
    exact (eq_iff_unpadded_eq hp hq).mpr he.symm
  · rintro p _ _ ⟨s, hs, rfl⟩ ⟨t, ht, rfl⟩
    exact (eq_iff_unpadded_eq hs ht).mp rfl

end Path

end ApiContract
