import ApiContract.Proofs.Json.Scalars

namespace ApiContract.Json

variable {c d : Char} {s t gap rest rest' : List Char} {care inner : Care} {json : Json}
  {items : List Json} {key : String} {members : List (String × Json)}

mutual

def levels : Json → Nat
  | array items => itemLevels items + 1
  | object fields => fieldLevels fields + 1
  | _ => 0

def itemLevels : List Json → Nat
  | [] => 0
  | item :: items => max item.levels (itemLevels items)

def fieldLevels : List (String × Json) → Nat
  | [] => 0
  | (_, value) :: fields => max value.levels (fieldLevels fields)

end

def Ends (rest : List Char) : Prop :=
  ∀ c ∈ rest.head?, isGap c = true ∨ c = ',' ∨ c = ']' ∨ c = '\x7d'

theorem ends_mark (h : c = ',' ∨ c = ']' ∨ c = '\x7d') : Ends (c :: rest) := by
  intro d hd
  cases hd
  exact .inr h

theorem Ends.stops (h : Ends rest) : Numeral.Stops rest := by
  intro c hc
  obtain hgap | rfl | rfl | rfl := h c hc
  · simp only [isGap, Bool.or_eq_true, beq_iff_eq] at hgap
    obtain ((rfl | rfl) | rfl) | rfl := hgap <;> decide
  · decide
  · decide
  · decide

/-- A text is read as data wherever a value may end behind it. -/
def Reads (care : Care) (s : List Char) (json : Json) : Prop :=
  ∀ rest, Ends rest → (value? care (s ++ rest)).map Reading.pair = some (json, rest)

theorem pair_value?_text (h : (front? s).map Reading.pair = some ('\x22', rest)) :
    (value? care s).map Reading.pair =
      ((stringTail care.isSkim rest).map Reading.pair).map
        fun p => (string (String.ofList p.1), p.2) := by
  obtain ⟨r, hr, hvalue, rfl⟩ := exists_of_map_pair h
  rw [value?, hr]
  simp only [hvalue, Option.map_map]
  rfl

theorem pair_value?_array (h : (front? s).map Reading.pair = some ('[', rest))
    (hd : care.deeper = some inner) :
    (value? care s).map Reading.pair =
      ((items? inner rest).map Reading.pair).map fun p => (array p.1, p.2) := by
  obtain ⟨r, hr, hvalue, rfl⟩ := exists_of_map_pair h
  rw [value?, hr]
  simp only [hvalue, hd, Option.map_map]
  rfl

theorem pair_value?_object (h : (front? s).map Reading.pair = some ('\x7b', rest))
    (hd : care.deeper = some inner) :
    (value? care s).map Reading.pair =
      ((members? inner rest).map Reading.pair).map
        fun p => (object (Fields.ofList p.1), p.2) := by
  obtain ⟨r, hr, hvalue, rfl⟩ := exists_of_map_pair h
  rw [value?, hr]
  simp only [hvalue, hd, Option.map_map]
  rfl

theorem pair_value?_scalar (h : (front? s).map Reading.pair = some (c, rest))
    (hc : c ∉ ['[', '\x7b', '\x22']) :
    (value? care s).map Reading.pair = (scalar? care (c :: rest)).map Reading.pair := by
  simp only [List.mem_cons, List.not_mem_nil, or_false, not_or] at hc
  obtain ⟨r, hr, rfl, rfl⟩ := exists_of_map_pair h
  rw [value?, hr]
  dsimp only
  split
  · next heq => exact absurd heq hc.1
  · next heq => exact absurd heq hc.2.1
  · next heq => exact absurd heq hc.2.2
  · rw [Option.map_map]
    rfl

theorem pair_value?_congr (h : (front? s).map Reading.pair = (front? t).map Reading.pair) :
    (value? care s).map Reading.pair = (value? care t).map Reading.pair := by
  cases ht : front? t with
  | none =>
    rw [ht] at h
    rw [value?, value?, Option.map_eq_none_iff.mp h, ht]
    rfl
  | some r =>
    rw [ht] at h
    obtain ⟨q, hq, hvalue, hrest⟩ := exists_of_map_pair h
    obtain ⟨c, rest, within⟩ := q
    obtain ⟨c', rest', within'⟩ := r
    obtain rfl : c = c' := hvalue
    obtain rfl : rest = rest' := hrest
    rw [value?, value?, hq, ht]
    dsimp only
    split
    · cases care.deeper with
      | none => rfl
      | some inner =>
        simp only [Option.map_map]
        rfl
    · cases care.deeper with
      | none => rfl
      | some inner =>
        simp only [Option.map_map]
        rfl
    · simp only [Option.map_map]
      rfl
    · simp only [Option.map_map]
      rfl

theorem Reads.behind_gap (h : Reads care s json) (hg : Gap gap) : Reads care (gap ++ s) json := by
  intro rest hr
  rw [List.append_assoc, pair_value?_congr (pair_front?_gaps hg), h rest hr]

theorem pair_scalar?_word (h : word? s = some (json, rest)) (hl : rest.length < s.length) :
    (scalar? care s).map Reading.pair = some (json, rest) := by
  simp only [scalar?, h, hl, dite_true]
  rfl

theorem pair_scalar?_number {negative : Bool} {x : Numeral} (hw : word? s = none)
    (hs : signedNumeral? s = some (negative, x, rest)) (hn : numberOf care negative x = some json)
    (hl : rest.length < s.length) : (scalar? care s).map Reading.pair = some (json, rest) := by
  simp only [scalar?, hw, hs, hn, Option.bind_eq_bind, Option.bind_some, hl, dite_true]
  rfl

theorem reads_word {word : List Char} (h : ∀ rest, word? (word ++ rest) = some (json, rest))
    (hc : word.head? = some c) (hgap : isGap c = false) (hmark : c ∉ ['[', '\x7b', '\x22']) :
    Reads care word json := by
  intro rest _
  obtain ⟨more, rfl⟩ := List.head?_eq_some_iff.mp hc
  rw [List.cons_append, pair_value?_scalar (pair_front?_here hgap) hmark]
  apply pair_scalar?_word (h rest)
  rw [List.length_append, List.length_cons]
  omega

theorem reads_null : Reads care null.chars null :=
  reads_word (fun _ => rfl) rfl (by decide) (by decide)

theorem reads_bool (b : Bool) : Reads care (bool b).chars (bool b) := by
  cases b with
  | false => exact reads_word (fun _ => rfl) rfl (by decide) (by decide)
  | true => exact reads_word (fun _ => rfl) rfl (by decide) (by decide)

theorem reads_string (text : String) {levels : Nat} :
    Reads (.full levels) (string text).chars (string text) := by
  intro rest _
  have hchars : (string text).chars ++ rest =
      '\x22' :: (text.toList.flatMap (Text.Escapes.write escapes) ++ '\x22' :: rest) := by
    rw [chars, quoted, Text.quote, List.append_assoc, List.cons_append, List.singleton_append]
  have hskim : (Care.full levels).isSkim = false := rfl
  rw [hchars, pair_value?_text (pair_front?_here (by decide)), hskim, pair_stringTail_quoted,
    Option.map_some, String.ofList_toList]

def opensNumber (c : Char) : Bool := c.isDigit || c == '-'

theorem ne_of_opensNumber (h : opensNumber c = true) (hd : opensNumber d = false) : c ≠ d := by
  rintro rfl
  rw [hd] at h
  cases h

theorem word?_eq_none (h : opensNumber c = true) : word? (c :: s) = none := by
  have hn : 'n' ≠ c := (ne_of_opensNumber h (by decide)).symm
  have ht : 't' ≠ c := (ne_of_opensNumber h (by decide)).symm
  have hf : 'f' ≠ c := (ne_of_opensNumber h (by decide)).symm
  simp [word?, Text.strip?, hn, ht, hf]

theorem not_isGap_of_opensNumber (h : opensNumber c = true) : isGap c = false := by
  by_contra hgap
  simp only [isGap, Bool.not_eq_false, Bool.or_eq_true, beq_iff_eq] at hgap
  obtain ((rfl | rfl) | rfl) | rfl := hgap <;> cases h

theorem exists_chars_eq_cons (n : Number) : ∃ c s, n.chars = c :: s ∧ opensNumber c = true := by
  obtain ⟨negative, x, hx, -, htext, -⟩ := n.exists_numeral_read
  obtain ⟨c, s, hs, hdigit⟩ := exists_text_eq_cons hx
  rw [htext, hs]
  cases negative with
  | false => exact ⟨c, s, rfl, by rw [opensNumber, hdigit, Bool.true_or]⟩
  | true => exact ⟨'-', c :: s, rfl, rfl⟩

theorem reads_number (n : Number) {levels : Nat} :
    Reads (.full levels) (number n).chars (number n) := by
  intro rest hr
  obtain ⟨negative, x, hx, hunpadded, htext, hread⟩ := n.exists_numeral_read
  have hsigned : signedNumeral? (n.chars ++ rest) = some (negative, x, rest) := by
    rw [htext]
    exact signedNumeral?_append hx hunpadded hr.stops
  have hnumber : numberOf (.full levels) negative x = some (number n) := by
    simp only [numberOf, hread]
  obtain ⟨c, more, hchars, hstart⟩ := exists_chars_eq_cons n
  have hmark : c ∉ ['[', '\x7b', '\x22'] := by
    intro hmem
    simp only [List.mem_cons, List.not_mem_nil, or_false] at hmem
    obtain rfl | rfl | rfl := hmem <;> cases hstart
  have hfront := @pair_front?_here c (more ++ rest) (not_isGap_of_opensNumber hstart)
  rw [chars]
  rw [hchars, List.cons_append] at hsigned ⊢
  rw [pair_value?_scalar hfront hmark]
  apply pair_scalar?_number (word?_eq_none hstart) hsigned hnumber
  rw [List.length_cons, List.length_append]
  omega

def ReadsItems (care : Care) (s : List Char) (items : List Json) : Prop :=
  ∀ rest, (itemTail? care (s ++ ']' :: rest)).map Reading.pair = some (items, rest)

theorem pair_itemTail?_last (h : (value? care s).map Reading.pair = some (json, rest))
    (hc : (front? rest).map Reading.pair = some (']', rest')) :
    (itemTail? care s).map Reading.pair = some ([json], rest') := by
  obtain ⟨item, hitem, rfl, rfl⟩ := exists_of_map_pair h
  obtain ⟨close, hclose, -, rfl⟩ := exists_of_map_pair (pair_mark?_of_front? hc)
  have hcomma : mark? ',' item.rest = none := mark?_eq_none hc (by decide)
  rw [itemTail?, hitem]
  simp only [hcomma, hclose, Option.map_some]
  rfl

theorem pair_itemTail?_more (h : (value? care s).map Reading.pair = some (json, rest))
    (hc : (front? rest).map Reading.pair = some (',', rest')) :
    (itemTail? care s).map Reading.pair =
      ((itemTail? care rest').map Reading.pair).map fun p => (json :: p.1, p.2) := by
  obtain ⟨item, hitem, rfl, rfl⟩ := exists_of_map_pair h
  obtain ⟨comma, hcomma, -, rfl⟩ := exists_of_map_pair (pair_mark?_of_front? hc)
  rw [itemTail?, hitem]
  simp only [hcomma, Option.map_map]
  rfl

theorem value?_closing (h : (front? s).map Reading.pair = some (']', rest)) :
    value? care s = none := by
  have hscalar : scalar? care (']' :: rest) = none := rfl
  have hpair : (value? care s).map Reading.pair = none := by
    rw [pair_value?_scalar h (by decide), hscalar]
    rfl
  exact Option.map_eq_none_iff.mp hpair

theorem pair_items?_of_itemTail? (h : (itemTail? care s).map Reading.pair = some (items, rest)) :
    (items? care s).map Reading.pair = some (items, rest) := by
  cases hclose : mark? ']' s with
  | none =>
    rw [items?, hclose]
    exact h
  | some close =>
    -- no value starts with the bracket, so that no item could have been read
    have hfront := @pair_front?_of_mark? ']' close.value s close.rest (by rw [hclose]; rfl)
    rw [itemTail?, value?_closing hfront] at h
    cases h

theorem ends_gap (hg : Gap gap) (hr : Ends rest) : Ends (gap ++ rest) := by
  cases gap with
  | nil => exact hr
  | cons c gap =>
    intro d hd
    cases hd
    exact .inl (hg c List.mem_cons_self)

theorem Reads.last (h : Reads care s json) (hg : Gap gap) :
    ReadsItems care (s ++ gap) [json] := by
  intro rest
  have hends : Ends (']' :: rest) := ends_mark (.inr (.inl rfl))
  rw [List.append_assoc]
  apply pair_itemTail?_last (h _ (ends_gap hg hends))
  rw [pair_front?_gaps hg]
  exact pair_front?_here (by decide)

theorem Reads.more (h : Reads care s json) (hi : ReadsItems care t items) :
    ReadsItems care (s ++ ',' :: t) (json :: items) := by
  intro rest
  have hends : Ends (',' :: (t ++ ']' :: rest)) := ends_mark (.inl rfl)
  rw [List.append_assoc, List.cons_append,
    pair_itemTail?_more (h _ hends) (pair_front?_here (by decide)), hi rest]
  rfl

theorem ReadsItems.array (h : ReadsItems inner s items) (hd : care.deeper = some inner) :
    Reads care ('[' :: s ++ [']']) (array items) := by
  intro rest _
  rw [List.append_assoc, List.cons_append, List.singleton_append,
    pair_value?_array (pair_front?_here (by decide)) hd, pair_items?_of_itemTail? (h rest)]
  rfl

theorem pair_items?_nil (h : (front? s).map Reading.pair = some (']', rest)) :
    (items? care s).map Reading.pair = some ([], rest) := by
  obtain ⟨close, hclose, -, rfl⟩ := exists_of_map_pair (pair_mark?_of_front? h)
  rw [items?, hclose]
  rfl

theorem reads_array_nil (hd : care.deeper = some inner) : Reads care ['[', ']'] (array []) := by
  intro rest _
  rw [List.cons_append, List.singleton_append,
    pair_value?_array (pair_front?_here (by decide)) hd,
    pair_items?_nil (pair_front?_here (by decide))]
  rfl

def ReadsMembers (care : Care) (s : List Char) (members : List (String × Json)) : Prop :=
  ∀ rest, (memberTail? care (s ++ '\x7d' :: rest)).map Reading.pair = some (members, rest)

variable {cs : List Char} {skim : Bool}

theorem pair_key?_of_front? (hq : (front? s).map Reading.pair = some ('\x22', t))
    (ht : (stringTail skim t).map Reading.pair = some (cs, rest))
    (hc : (front? rest).map Reading.pair = some (':', rest')) :
    (key? skim s).map Reading.pair = some (String.ofList cs, rest') := by
  obtain ⟨quote, hquote, -, rfl⟩ := exists_of_map_pair (pair_mark?_of_front? hq)
  obtain ⟨text, htext, rfl, rfl⟩ := exists_of_map_pair ht
  obtain ⟨colon, hcolon, -, rfl⟩ := exists_of_map_pair (pair_mark?_of_front? hc)
  simp only [key?, hquote, htext, hcolon, Option.bind_eq_bind, Option.bind_some]
  rfl

theorem pair_key?_quoted (hg : Gap gap) :
    (key? false (gap ++ (quoted key ++ ':' :: s))).map Reading.pair = some (key, s) := by
  have hquoted : quoted key ++ ':' :: s =
      '\x22' :: (key.toList.flatMap (Text.Escapes.write escapes) ++ '\x22' :: ':' :: s) := by
    rw [quoted, Text.quote, List.append_assoc, List.cons_append, List.singleton_append]
  have hfront : (front? (gap ++ (quoted key ++ ':' :: s))).map Reading.pair = some ('\x22',
      key.toList.flatMap (Text.Escapes.write escapes) ++ '\x22' :: ':' :: s) := by
    rw [pair_front?_gaps hg, hquoted]
    exact pair_front?_here (by decide)
  have hread := pair_key?_of_front? hfront (pair_stringTail_quoted key.toList)
    (pair_front?_here (by decide))
  rwa [String.ofList_toList] at hread

theorem pair_memberTail?_last (hk : (key? care.isSkim s).map Reading.pair = some (key, t))
    (h : (value? care t).map Reading.pair = some (json, rest))
    (hc : (front? rest).map Reading.pair = some ('\x7d', rest')) :
    (memberTail? care s).map Reading.pair = some ([(key, json)], rest') := by
  obtain ⟨key, hkey, rfl, rfl⟩ := exists_of_map_pair hk
  obtain ⟨item, hitem, rfl, rfl⟩ := exists_of_map_pair h
  obtain ⟨close, hclose, -, rfl⟩ := exists_of_map_pair (pair_mark?_of_front? hc)
  have hcomma : mark? ',' item.rest = none := mark?_eq_none hc (by decide)
  rw [memberTail?, hkey]
  simp only [hitem, hcomma, hclose, Option.map_some]
  rfl

theorem pair_memberTail?_more (hk : (key? care.isSkim s).map Reading.pair = some (key, t))
    (h : (value? care t).map Reading.pair = some (json, rest))
    (hc : (front? rest).map Reading.pair = some (',', rest')) :
    (memberTail? care s).map Reading.pair =
      ((memberTail? care rest').map Reading.pair).map fun p => ((key, json) :: p.1, p.2) := by
  obtain ⟨key, hkey, rfl, rfl⟩ := exists_of_map_pair hk
  obtain ⟨item, hitem, rfl, rfl⟩ := exists_of_map_pair h
  obtain ⟨comma, hcomma, -, rfl⟩ := exists_of_map_pair (pair_mark?_of_front? hc)
  rw [memberTail?, hkey]
  simp only [hitem, hcomma, Option.map_map]
  rfl

theorem key?_closing (h : (front? s).map Reading.pair = some ('\x7d', rest)) :
    key? skim s = none := by
  have hquote : mark? '\x22' s = none := mark?_eq_none h (by decide)
  rw [key?, hquote]
  rfl

theorem pair_members?_of_memberTail?
    (h : (memberTail? care s).map Reading.pair = some (members, rest)) :
    (members? care s).map Reading.pair = some (members, rest) := by
  cases hclose : mark? '\x7d' s with
  | none =>
    rw [members?, hclose]
    exact h
  | some close =>
    have hfront := @pair_front?_of_mark? '\x7d' close.value s close.rest (by rw [hclose]; rfl)
    rw [memberTail?, key?_closing hfront] at h
    cases h

variable {levels : Nat}

theorem Reads.lastMember (h : Reads (.full levels) s json) (hg : Gap gap) (hg' : Gap front) :
    ReadsMembers (.full levels) (gap ++ (quoted key ++ ':' :: s) ++ front) [(key, json)] := by
  intro rest
  have hends : Ends ('\x7d' :: rest) := ends_mark (.inr (.inr rfl))
  have htext : gap ++ (quoted key ++ ':' :: s) ++ front ++ '\x7d' :: rest =
      gap ++ (quoted key ++ ':' :: (s ++ (front ++ '\x7d' :: rest))) := by
    simp only [List.append_assoc, List.cons_append]
  rw [htext]
  apply pair_memberTail?_last (pair_key?_quoted hg) (h _ (ends_gap hg' hends))
  rw [pair_front?_gaps hg']
  exact pair_front?_here (by decide)

theorem Reads.moreMembers (h : Reads (.full levels) s json) (hg : Gap gap)
    (hm : ReadsMembers (.full levels) t members) :
    ReadsMembers (.full levels) (gap ++ (quoted key ++ ':' :: s) ++ ',' :: t)
      ((key, json) :: members) := by
  intro rest
  have hends : Ends (',' :: (t ++ '\x7d' :: rest)) := ends_mark (.inl rfl)
  have htext : gap ++ (quoted key ++ ':' :: s) ++ ',' :: t ++ '\x7d' :: rest =
      gap ++ (quoted key ++ ':' :: (s ++ ',' :: (t ++ '\x7d' :: rest))) := by
    simp only [List.append_assoc, List.cons_append]
  rw [htext, pair_memberTail?_more (pair_key?_quoted hg) (h _ hends) (pair_front?_here (by decide)),
    hm rest]
  rfl

theorem ReadsMembers.object (h : ReadsMembers inner s members) (hd : care.deeper = some inner)
    (hs : Fields.Sorted members) : Reads care ('\x7b' :: s ++ ['\x7d']) (object members) := by
  intro rest _
  rw [List.append_assoc, List.cons_append, List.singleton_append,
    pair_value?_object (pair_front?_here (by decide)) hd, pair_members?_of_memberTail? (h rest),
    Option.map_some, Fields.ofList_eq_self hs]

theorem pair_members?_nil (h : (front? s).map Reading.pair = some ('\x7d', rest)) :
    (members? care s).map Reading.pair = some ([], rest) := by
  obtain ⟨close, hclose, -, rfl⟩ := exists_of_map_pair (pair_mark?_of_front? h)
  rw [members?, hclose]
  rfl

theorem reads_object_nil (hd : care.deeper = some inner) :
    Reads care ['\x7b', '\x7d'] (object []) := by
  intro rest _
  rw [List.cons_append, List.singleton_append,
    pair_value?_object (pair_front?_here (by decide)) hd,
    pair_members?_nil (pair_front?_here (by decide))]
  rfl

end ApiContract.Json
