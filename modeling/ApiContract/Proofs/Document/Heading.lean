import Mathlib.Tactic.Ring
import ApiContract.Proofs.Path.Writing
import ApiContract.Document.Heading

namespace ApiContract.Heading

def IsName (name : String) : Prop := Identifier.isValid name.toList = true

def IsClear (text : List Char) (collection : String) : Prop :=
  IsName collection ∧ text = "Clear ".toList ++ collection.toList

def IsDeclaration (text : List Char) (name : String) : Prop :=
  IsName name ∧ text = name.toList ++ " is".toList

def IsInsertion (text : List Char) (name collection : String) : Prop :=
  IsName name ∧ IsName collection ∧ text = name.toList ++ " in ".toList ++ collection.toList

def IsFind (text : List Char) (collection : String) : Prop :=
  IsName collection ∧ text = "Find in ".toList ++ collection.toList

inductive IsPost : List Char → Option String → Prop
  | alone : IsPost "Post".toList none
  | blanks {gap : List Char} (hne : gap ≠ []) (hgap : ∀ c ∈ gap, Text.isBlank c = true) :
    IsPost ("Post".toList ++ gap) none
  | endpoint {gap : List Char} {url : String} (hne : gap ≠ [])
    (hgap : ∀ c ∈ gap, Text.isBlank c = true) (hurl : url.toList ≠ [])
    (hhead : ∀ c ∈ url.toList.head?, Text.isBlank c = false) (hline : '\n' ∉ url.toList) :
    IsPost ("Post".toList ++ gap ++ url.toList) (some url)

inductive IsOut : List Char → Option Nat → Prop
  | alone : IsOut "Out".toList none
  | status {digits : List Char} (hlen : digits.length = 3)
    (hdigits : ∀ c ∈ digits, c.isDigit = true) :
    IsOut ("Out ".toList ++ digits) (some (Nat.ofDigitChars 10 digits 0))

theorem identifier?_eq_some_iff {s : List Char} {name : String} :
    identifier? s = some name ↔ IsName name ∧ s = name.toList := by
  unfold identifier? IsName
  constructor
  · intro h
    split at h
    · rename_i hv
      cases h
      rw [String.toList_ofList]
      exact ⟨hv, rfl⟩
    · cases h
  · rintro ⟨hv, rfl⟩
    rw [if_pos hv, String.ofList_toList]

theorem strip?_bind_identifier?_iff {start text : List Char} {name : String} :
    (Text.strip? start text).bind identifier? = some name ↔
      IsName name ∧ text = start ++ name.toList := by
  rw [Option.bind_eq_some_iff]
  constructor
  · rintro ⟨rest, hs, hi⟩
    obtain ⟨hn, rfl⟩ := identifier?_eq_some_iff.mp hi
    exact ⟨hn, Text.strip?_eq_some_iff.mp hs⟩
  · rintro ⟨hn, rfl⟩
    exact ⟨name.toList, Text.strip?_append _ _, identifier?_eq_some_iff.mpr ⟨hn, rfl⟩⟩

theorem clear?_eq_some_iff {text : List Char} {collection : String} :
    clear? text = some collection ↔ IsClear text collection := strip?_bind_identifier?_iff

theorem find?_eq_some_iff {text : List Char} {collection : String} :
    find? text = some collection ↔ IsFind text collection := strip?_bind_identifier?_iff

theorem stripEnd?_eq_some_iff {ending s rest : List Char} :
    Text.stripEnd? ending s = some rest ↔ s = rest ++ ending := by
  rw [Text.stripEnd?, Option.map_eq_some_iff]
  constructor
  · rintro ⟨back, hb, rfl⟩
    have hs := Text.strip?_eq_some_iff.mp hb
    rw [← List.reverse_reverse s, hs, List.reverse_append, List.reverse_reverse]
  · rintro rfl
    refine ⟨rest.reverse, ?_, List.reverse_reverse rest⟩
    rw [List.reverse_append]
    exact Text.strip?_append _ _

theorem declaration?_eq_some_iff {text : List Char} {name : String} :
    declaration? text = some name ↔ IsDeclaration text name := by
  rw [declaration?, Option.bind_eq_some_iff]
  constructor
  · rintro ⟨rest, hs, hi⟩
    obtain ⟨hn, rfl⟩ := identifier?_eq_some_iff.mp hi
    exact ⟨hn, stripEnd?_eq_some_iff.mp hs⟩
  · rintro ⟨hn, rfl⟩
    exact ⟨name.toList, stripEnd?_eq_some_iff.mpr rfl, identifier?_eq_some_iff.mpr ⟨hn, rfl⟩⟩

theorem insertion?_eq_some_iff {text : List Char} {name collection : String} :
    insertion? text = some (name, collection) ↔ IsInsertion text name collection := by
  simp only [insertion?, Option.bind_eq_bind, Option.bind_eq_some_iff, Option.some.injEq,
    Prod.mk.injEq, Prod.exists]
  constructor
  · rintro ⟨front, rest, ht, inner, hs, found, hi, rfl, rfl⟩
    obtain ⟨hn, rfl⟩ := identifier?_eq_some_iff.mp hi
    have hv := Identifier.isValid_of_take? ht
    refine ⟨?_, hn, ?_⟩
    · rw [IsName, String.toList_ofList]
      exact hv
    · rw [String.toList_ofList, List.append_assoc, ← Text.strip?_eq_some_iff.mp hs]
      exact (Identifier.append_of_take? ht).symm
  · rintro ⟨hname, hn, rfl⟩
    refine ⟨name.toList, " in ".toList ++ collection.toList, ?_, collection.toList,
      Text.strip?_append _ _, collection, identifier?_eq_some_iff.mpr ⟨hn, rfl⟩,
      String.ofList_toList, rfl⟩
    rw [List.append_assoc]
    exact Identifier.take?_append hname (by simp; decide)

theorem trimStart_append {gap rest : List Char} (hgap : ∀ c ∈ gap, Text.isBlank c = true)
    (hrest : ∀ c ∈ rest.head?, Text.isBlank c = false) : Text.trimStart (gap ++ rest) = rest :=
  (Text.takeWhile_append_of_head hgap hrest).2

theorem post?_gap {gap rest : List Char} (hne : gap ≠ [])
    (hgap : ∀ c ∈ gap, Text.isBlank c = true)
    (hrest : ∀ c ∈ rest.head?, Text.isBlank c = false) (hline : '\n' ∉ rest) :
    post? ("Post".toList ++ gap ++ rest) =
      some (if rest.isEmpty then none else some (String.ofList rest)) := by
  obtain ⟨c, gap, rfl⟩ := List.exists_cons_of_ne_nil hne
  have hs : Text.strip? "Post".toList ("Post".toList ++ (c :: gap ++ rest)) =
      some (c :: (gap ++ rest)) := Text.strip?_append _ _
  have htrim : Text.trimStart (gap ++ rest) = rest :=
    trimStart_append (fun d hd => hgap d (by simp [hd])) hrest
  rw [List.append_assoc, post?, hs]
  simp [hgap c (by simp), htrim, hline]

theorem isPost_of_post? {text : List Char} {url : Option String} (h : post? text = some url) :
    IsPost text url := by
  simp only [post?] at h
  split at h
  · rename_i hs
    cases h
    rw [Text.strip?_eq_some_iff.mp hs]
    exact .alone
  · rename_i c rest hs
    rw [Text.strip?_eq_some_iff.mp hs]
    split at h
    · rename_i hc
      have hblanks : ∀ d ∈ c :: rest.takeWhile Text.isBlank, Text.isBlank d = true := by
        intro d hd
        rcases List.mem_cons.mp hd with rfl | hd
        · exact hc
        · exact List.mem_takeWhile_imp hd
      have hsplit : c :: rest = c :: rest.takeWhile Text.isBlank ++ Text.trimStart rest := by
        rw [Text.trimStart, List.cons_append, List.takeWhile_append_dropWhile]
      rw [hsplit, ← List.append_assoc]
      split at h
      · cases h
      · rename_i hline
        cases h
        cases hu : Text.trimStart rest with
        | nil =>
          rw [List.append_nil]
          exact .blanks (by simp) hblanks
        | cons d url =>
          have hurl : (String.ofList (d :: url)).toList = d :: url := String.toList_ofList
          have hpost := @IsPost.endpoint (c :: rest.takeWhile Text.isBlank)
            (String.ofList (d :: url)) (by simp) hblanks
          rw [hurl] at hpost
          apply hpost (by simp)
          · exact hu ▸ Text.head_trimStart rest
          · rw [← hu]
            simpa using hline
    · cases h
  · cases h

theorem post?_eq_some_iff {text : List Char} {url : Option String} :
    post? text = some url ↔ IsPost text url := by
  refine ⟨isPost_of_post?, fun h => ?_⟩
  cases h with
  | alone => rfl
  | blanks hne hgap => simpa using post?_gap hne hgap (by simp) List.not_mem_nil
  | @endpoint gap url hne hgap hurl hhead hline =>
    rw [post?_gap hne hgap hhead hline, String.ofList_toList]
    simp [hurl]

theorem out?_eq_some_iff {text : List Char} {status : Option Nat} :
    out? text = some status ↔ IsOut text status := by
  constructor
  · intro h
    simp only [out?] at h
    split at h
    · rename_i hs
      cases h
      rw [Text.strip?_eq_some_iff.mp hs]
      exact .alone
    · rename_i digits hs
      split at h
      · rename_i hd
        cases h
        simp only [Bool.and_eq_true, beq_iff_eq, List.all_eq_true] at hd
        rw [Text.strip?_eq_some_iff.mp hs]
        exact .status hd.1 hd.2
      · cases h
    · cases h
  · intro h
    cases h with
    | alone => rfl
    | @status digits hlen hdigits =>
      have hs : Text.strip? "Out".toList ("Out ".toList ++ digits) = some (' ' :: digits) :=
        Text.strip?_append "Out".toList (' ' :: digits)
      have hall : digits.all Char.isDigit = true := List.all_eq_true.mpr hdigits
      rw [out?, hs]
      simp only [hlen, hall, beq_self_eq_true, Bool.and_self, ↓reduceIte]

theorem ofDigitChars_lt {digits : List Char} (h : ∀ c ∈ digits, c.isDigit = true) (init : Nat) :
    Nat.ofDigitChars 10 digits init < (init + 1) * 10 ^ digits.length := by
  induction digits generalizing init with
  | nil => simp [Nat.ofDigitChars_nil]
  | cons c digits ih =>
    have hc : c.toNat - '0'.toNat < 10 := by
      have hd : 48 ≤ c.toNat ∧ c.toNat ≤ 57 :=
        ((Bool.and_eq_true _ _).mp (h c (by simp))).imp of_decide_eq_true of_decide_eq_true
      have h0 : '0'.toNat = 48 := rfl
      omega
    have hrest := ih (fun d hd => h d (by simp [hd])) (10 * init + (c.toNat - '0'.toNat))
    rw [Nat.ofDigitChars_cons, List.length_cons, Nat.pow_succ']
    calc Nat.ofDigitChars 10 digits (10 * init + (c.toNat - '0'.toNat))
        < (10 * init + (c.toNat - '0'.toNat) + 1) * 10 ^ digits.length := hrest
      _ ≤ (10 * (init + 1)) * 10 ^ digits.length := Nat.mul_le_mul_right _ (by omega)
      _ = (init + 1) * (10 * 10 ^ digits.length) := by ring

theorem IsOut.status_lt {text : List Char} {status : Nat} (h : IsOut text (some status)) :
    status < 1000 := by
  cases h with
  | @status digits hlen hdigits =>
    have hlt := ofDigitChars_lt hdigits 0
    rwa [hlen] at hlt

theorem length_toDigits_status {status : Nat} (h : status < 1000) :
    (Nat.toDigits 10 status).length = 3 ↔ 100 ≤ status := by
  have h₃ : (Nat.toDigits 10 status).length ≤ 3 :=
    (Nat.length_toDigits_le_iff (by decide) (by decide)).mpr h
  have h₂ : (Nat.toDigits 10 status).length ≤ 2 ↔ status < 10 ^ 2 :=
    Nat.length_toDigits_le_iff (by decide) (by decide)
  omega

theorem out?_status {status : Nat} (h : status < 1000) :
    out? ("Out ".toList ++ (toString status).toList) =
      if 100 ≤ status then some (some status) else none := by
  have hdigits : (Nat.toDigits 10 status).all Char.isDigit = true :=
    List.all_eq_true.mpr fun c hc => Nat.isDigit_of_mem_toDigits (by decide) (by decide) hc
  have htext : (toString status).toList = Nat.toDigits 10 status := by
    rw [Nat.toString_eq_ofList_toDigits, String.toList_ofList]
  have hs : Text.strip? "Out".toList ("Out ".toList ++ Nat.toDigits 10 status) =
      some (' ' :: Nat.toDigits 10 status) :=
    Text.strip?_append "Out".toList (' ' :: Nat.toDigits 10 status)
  have hlen := length_toDigits_status h
  rw [htext, out?, hs]
  by_cases hle : 100 ≤ status
  · simp [hdigits, hlen.mpr hle, hle, Nat.ofDigitChars_ten_toDigits]
  · have hne : (Nat.toDigits 10 status).length ≠ 3 := fun e => hle (hlen.mp e)
    simp [hne, hle]

theorem IsPost.head {text : List Char} {url : Option String} (h : IsPost text url) :
    text.head? = some 'P' := by
  cases h <;> rfl

theorem IsOut.head {text : List Char} {status : Option Nat} (h : IsOut text status) :
    text.head? = some 'O' := by
  cases h <;> rfl

theorem IsFind.head {text : List Char} {collection : String} (h : IsFind text collection) :
    text.head? = some 'F' := by
  rw [h.2]
  rfl

theorem post?_eq_none {text : List Char} (h : text.head? = some 'O' ∨ text.head? = some 'F') :
    post? text = none := by
  by_contra hp
  obtain ⟨url, hu⟩ := Option.ne_none_iff_exists'.mp hp
  rw [(post?_eq_some_iff.mp hu).head] at h
  simp at h

theorem out?_eq_none {text : List Char} (h : text.head? = some 'F') : out? text = none := by
  by_contra hp
  obtain ⟨status, hs⟩ := Option.ne_none_iff_exists'.mp hp
  rw [(out?_eq_some_iff.mp hs).head] at h
  simp at h

theorem IsName.blank_notMem {name : String} (h : IsName name) : ' ' ∉ name.toList := fun hm => by
  have hp := Identifier.isPart_of_mem h hm
  revert hp
  decide

theorem IsClear.pieces {text : List Char} {collection : String} (h : IsClear text collection) :
    Text.pieces ' ' text = ["Clear".toList, collection.toList] := by
  have hclear : ' ' ∉ "Clear".toList := by decide
  rw [h.2, ← Text.pieces_of_notMem h.1.blank_notMem]
  exact Text.pieces_append hclear collection.toList

theorem IsDeclaration.pieces {text : List Char} {name : String} (h : IsDeclaration text name) :
    Text.pieces ' ' text = [name.toList, "is".toList] := by
  rw [h.2]
  exact Text.pieces_append h.1.blank_notMem "is".toList

theorem IsInsertion.pieces {text : List Char} {name collection : String}
    (h : IsInsertion text name collection) :
    Text.pieces ' ' text = [name.toList, "in".toList, collection.toList] := by
  have hin : Text.pieces ' ' ("in".toList ++ ' ' :: collection.toList) =
      ["in".toList, collection.toList] := by
    rw [Text.pieces_append (by decide), Text.pieces_of_notMem h.2.1.blank_notMem]
  rw [h.2.2, List.append_assoc, ← hin]
  exact Text.pieces_append h.1.blank_notMem _

theorem IsDeclaration.clear?_eq_none {text : List Char} {name : String}
    (h : IsDeclaration text name) (hn : name ≠ "Clear") : clear? text = none := by
  by_contra hc
  obtain ⟨collection, hc⟩ := Option.ne_none_iff_exists'.mp hc
  have hp := (clear?_eq_some_iff.mp hc).pieces
  rw [h.pieces, List.cons.injEq] at hp
  exact hn (String.toList_inj.mp hp.1)

theorem IsInsertion.clear?_eq_none {text : List Char} {name collection : String}
    (h : IsInsertion text name collection) : clear? text = none := by
  by_contra hc
  obtain ⟨other, hc⟩ := Option.ne_none_iff_exists'.mp hc
  have hp := (clear?_eq_some_iff.mp hc).pieces
  rw [h.pieces] at hp
  simp at hp

theorem IsInsertion.declaration?_eq_none {text : List Char} {name collection : String}
    (h : IsInsertion text name collection) : declaration? text = none := by
  by_contra hd
  obtain ⟨other, hd⟩ := Option.ne_none_iff_exists'.mp hd
  have hp := (declaration?_eq_some_iff.mp hd).pieces
  rw [h.pieces] at hp
  simp at hp

theorem IsDeclaration.ne_clear {text : List Char} {name : String} (h : IsDeclaration text name)
    (hc : clear? text = none) : name ≠ "Clear" := by
  rintro rfl
  have his : IsName "is" := by
    rw [IsName]
    decide
  have hi : IsClear text "is" := ⟨his, h.2⟩
  rw [clear?_eq_some_iff.mpr hi] at hc
  cases hc

end ApiContract.Heading
