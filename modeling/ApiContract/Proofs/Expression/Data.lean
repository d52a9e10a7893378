import ApiContract.Proofs.Comparison.Loosening
import ApiContract.Proofs.Comparison.Returned
import ApiContract.Proofs.Expression.Agreement
import ApiContract.Proofs.Expression.Lexing
import ApiContract.Proofs.Number.Conversion

namespace ApiContract

namespace Value

def texts : Value → List String
  | string s => [s]
  | id s => [s]
  | object fields => Fields.keys fields
  | _ => []

/-- At every depth, texts of characters that come back from their escapes. -/
def Kept (value : Value) : Prop :=
  Throughout parts (fun part => ∀ s ∈ part.texts, ∀ c ∈ s.toList, Expression.Lexeme.Kept c) value

theorem kept_string {s : String} :
    (string s).Kept ↔ ∀ c ∈ s.toList, Expression.Lexeme.Kept c := by
  rw [Kept, throughout_string]
  exact List.forall_mem_singleton

theorem kept_id {s : String} : (id s).Kept ↔ ∀ c ∈ s.toList, Expression.Lexeme.Kept c := by
  rw [Kept, throughout_id]
  exact List.forall_mem_singleton

theorem kept_array {items : List Value} : (array items).Kept ↔ ∀ item ∈ items, item.Kept := by
  rw [Kept, throughout_array]
  exact and_iff_right nofun

theorem kept_ordered {items : List Value} : (ordered items).Kept ↔ ∀ item ∈ items, item.Kept := by
  rw [Kept, throughout_ordered]
  exact and_iff_right nofun

theorem kept_object {fields : Fields Value} : (object fields).Kept ↔
    (∀ key ∈ fields.keys, ∀ c ∈ key.toList, Expression.Lexeme.Kept c) ∧
      ∀ m ∈ fields, m.2.Kept :=
  throughout_object

theorem kept_of_leaf {value : Value} (ht : value.texts = []) (hp : value.parts = []) :
    value.Kept := by
  rw [Kept, throughout_iff_of_leaf hp, ht]
  nofun

theorem Kept.of_spells {a b : Value} {s : String} (ha : a.Spells s) (hb : b.Spells s)
    (h : a.Kept) : b.Kept := by
  have hs : ∀ c ∈ s.toList, Expression.Lexeme.Kept c := by
    rcases ha with rfl | rfl
    · exact kept_string.mp h
    · exact kept_id.mp h
  rcases hb with rfl | rfl
  · exact kept_string.mpr hs
  · exact kept_id.mpr hs

end Value

open Comparison (Fits Items)

theorem exists_mem_zip {α β : Type} {as : List α} {bs : List β} (hl : bs.length ≤ as.length) {b : β}
    (hb : b ∈ bs) : ∃ a ∈ as, (a, b) ∈ as.zip bs := by
  obtain ⟨i, hi, rfl⟩ := List.mem_iff_getElem.mp hb
  have hzip : i < (as.zip bs).length := by
    rw [List.length_zip]
    omega
  refine ⟨as[i], List.getElem_mem _, ?_⟩
  rw [← List.getElem_zip (h := hzip)]
  exact List.getElem_mem hzip

theorem Covers.kept {a e : Value} (h : Covers a e) (he : e.Tidy) (ha : a.Kept) : e.Kept := by
  induction h with
  | null => exact Value.kept_of_leaf rfl rfl
  | bool => exact Value.kept_of_leaf rfl rfl
  | number => exact Value.kept_of_leaf rfl rfl
  | kind => exact Value.kept_of_leaf rfl rfl
  | text hs hs' => exact Value.Kept.of_spells hs hs' ha
  | array isArray distinct length _ ih =>
    refine Value.kept_array.mpr fun item hitem => ?_
    obtain ⟨c, hc, hzip⟩ := exists_mem_zip length.ge hitem
    have hpart := Comparison.Items.mem_parts isArray (distinct.subset hc)
    exact ih _ hzip (he.parts hitem) (ha.parts hpart)
  | ordered isArray length _ ih =>
    refine Value.kept_ordered.mpr fun item hitem => ?_
    obtain ⟨c, hc, hzip⟩ := exists_mem_zip length hitem
    have hpart := Comparison.Items.mem_parts isArray hc
    exact ih _ hzip (he.parts hitem) (ha.parts hpart)
  | object keys _ ih =>
    obtain ⟨hkeys, -⟩ := Value.kept_object.mp ha
    refine Value.kept_object.mpr ⟨fun key hkey => hkeys key (keys key hkey), fun m hm => ?_⟩
    obtain ⟨a, hget⟩ := Fields.mem_keys_iff.mp (keys m.1 (List.mem_map_of_mem hm))
    exact ih m.1 a m.2 hget (Fields.get?_of_mem he.here hm)
      (he.parts (List.mem_map_of_mem hm)) (ha.parts (Value.mem_parts_of_get? hget))

namespace Expression

variable {context : Context} {json : Json} {w : Value}

/-- What data is evaluated to, with what the comparison of the two comes down to. -/
structure Reread (context : Context) (json : Json) (w : Value) : Prop where
  evaluates : ∃ ts tree, Lexeme.Cuts json.chars ts ∧ Derives context .sum ts tree ∧
    tree.evaluate context = .ok w
  kept : w.Kept
  fits : (Value.ofJson json).Kept → Fits Comparison.exact w (Value.ofJson json)

theorem Reread.word {s : String} (hs : s ∈ Lexeme.words) (hchars : json.chars = s.toList)
    (hw : constant? s = some (Value.ofJson json)) (htexts : (Value.ofJson json).texts = [])
    (hparts : (Value.ofJson json).parts = [])
    (hfits : Fits Comparison.exact (Value.ofJson json) (Value.ofJson json)) :
    Reread context json (Value.ofJson json) where
  evaluates := ⟨[.name s], _, hchars ▸ Lexeme.cuts_word hs, .of_primary (.constant hw), rfl⟩
  kept := Value.kept_of_leaf htexts hparts
  fits _ := hfits

theorem Reread.null : Reread context .null .null :=
  .word (by decide : "null" ∈ Lexeme.words) rfl rfl rfl rfl
    (Comparison.fits_self (Value.throughout_null.mpr trivial) (Value.throughout_null.mpr trivial)).2

theorem Reread.bool (b : Bool) : Reread context (.bool b) (.bool b) := by
  have hfits : Fits Comparison.exact (.bool b) (.bool b) :=
    (Comparison.fits_self (Value.throughout_bool.mpr trivial) (Value.throughout_bool.mpr trivial)).2
  cases b with
  | true => exact .word (by decide : "true" ∈ Lexeme.words) rfl rfl rfl rfl hfits
  | false => exact .word (by decide : "false" ∈ Lexeme.words) rfl rfl rfl rfl hfits

theorem Reread.string (s : String) :
    Reread context (.string s) (.string (Lexeme.rereadText s)) where
  evaluates := ⟨[.text (Lexeme.rereadText s)], .text _, Lexeme.cuts_quoted, .of_primary .text, rfl⟩
  kept := Value.kept_string.mpr Lexeme.kept_of_mem_rereadText
  fits h := by
    rw [Lexeme.rereadText_of_kept (Value.kept_string.mp h)]
    exact (Comparison.fits_self (Value.throughout_string.mpr trivial)
      (Value.throughout_string.mpr trivial)).2

theorem Reread.number {n y : Number} {ts : List Lexeme} {tree : Tree}
    (hcuts : Lexeme.Cuts n.chars ts) (hderives : Derives context .sum ts tree)
    (heval : tree.evaluate context = .ok (.number y)) (h : y.Equal n) :
    Reread context (.number n) (.number y) where
  evaluates := ⟨ts, tree, hcuts, hderives, heval⟩
  kept := Value.kept_of_leaf rfl rfl
  fits _ path := by
    rw [Value.ofJson, Comparison.compareAt, Comparison.compareScalar_eq_ok_iff]
    exact Number.sameValue_iff.mpr h

theorem exists_reread_number (n : Number) : ∃ w, Reread context (.number n) w := by
  obtain ⟨negative, x, hx, hchars, hfinite, hn⟩ := n.exists_numeral
  obtain ⟨y, hy, hsame⟩ := Number.exists_ofDouble? hfinite
  have hcuts := Lexeme.cuts_numeral hx
  have hnumber : (Tree.number (x.toDouble false)).evaluate context = .ok (.number y) := by
    simp [Tree.evaluate, operate_eq_ok_iff, finite, Value.ofDouble?, hy]
  cases negative with
  | false =>
    rw [Double.signText, if_neg Bool.false_ne_true, List.nil_append] at hchars
    rw [if_neg Bool.false_ne_true] at hn
    refine ⟨.number y, .number (hchars ▸ hcuts) (.of_primary .number) hnumber ?_⟩
    rwa [Number.Equal, ← hn]
  | true =>
    rw [Double.signText, if_pos rfl, List.singleton_append] at hchars
    rw [if_pos rfl] at hn
    obtain ⟨z, hz, hsame'⟩ :=
      Number.exists_ofDouble? (Double.isFinite_neg (hsame.isFinite hfinite))
    have hnegation : (Tree.negation (.number (x.toDouble false))).evaluate context =
        .ok (.number z) := by
      refine Tree.evaluate_negation_eq_ok_iff.mpr ⟨_, hnumber, ?_⟩
      simp [negate, Value.toDouble?, finite, Value.ofDouble?, hz]
    refine ⟨.number z, .number (hchars ▸ hcuts.mark (by decide))
      (.product (.signed (.negation (.access (.primary .number))))) hnegation ?_⟩
    rw [Number.Equal, ← hn]
    exact hsame'.trans hsame.neg

theorem exists_items {items : List Json} {ws : List Value}
    (h : List.Forall₂ (Reread context) items ws) :
    ∃ ts trees, Lexeme.Cuts (Json.itemChars items ++ [']']) ts ∧ Expression.Items context ts trees ∧
      Tree.evaluateAll context trees = .ok ws := by
  induction h with
  | nil => exact ⟨[.symbol ']'], [], Lexeme.cuts_nil.mark (by decide), .none, rfl⟩
  | @cons item w items ws hitem hitems ih =>
    obtain ⟨ts, tree, hcuts, hderives, heval⟩ := hitem.evaluates
    cases hitems with
    | nil =>
      refine ⟨_, [tree], hcuts.separated (by decide) Lexeme.cuts_nil, .last hderives, ?_⟩
      exact Tree.evaluateAll_cons_eq_ok_iff.mpr ⟨w, [], heval, rfl, rfl⟩
    | @cons next w' items ws' hnext hrest =>
      obtain ⟨us, trees, hcuts', hitems, hevals⟩ := ih
      refine ⟨_, tree :: trees, ?_, .more hderives hitems, ?_⟩
      · rw [Json.itemChars_cons_cons, List.append_assoc, List.cons_append]
        exact hcuts.separated (by decide) hcuts'
      · exact Tree.evaluateAll_cons_eq_ok_iff.mpr ⟨w, _, heval, hevals, rfl⟩

def RereadMember (context : Context) (m : String × Json) (n : String × Value) : Prop :=
  n.1 = Lexeme.rereadText m.1 ∧ Reread context m.2 n.2

theorem exists_members {fields : List (String × Json)} {members : List (String × Value)}
    (h : List.Forall₂ (RereadMember context) fields members) :
    ∃ ts trees, Lexeme.Cuts (Json.fieldChars fields ++ ['\x7d']) ts ∧ Members context ts trees ∧
      Tree.evaluateMembers context trees = .ok members := by
  induction h with
  | nil => exact ⟨[.symbol '\x7d'], [], Lexeme.cuts_nil.mark (by decide), .none, rfl⟩
  | @cons m n fields members hmember hmembers ih =>
    obtain ⟨key, value⟩ := m
    obtain ⟨_, w⟩ := n
    obtain ⟨rfl, hvalue⟩ := hmember
    obtain ⟨ts, tree, hcuts, hderives, heval⟩ := hvalue.evaluates
    have hkey : Lexeme.Cuts (Json.quoted key) [.text (Lexeme.rereadText key)] := Lexeme.cuts_quoted
    cases hmembers with
    | nil =>
      refine ⟨.text (Lexeme.rereadText key) :: .symbol ':' :: (ts ++ [.symbol '\x7d']),
        [(Lexeme.rereadText key, tree)], ?_, .last rfl hderives, ?_⟩
      · rw [Json.fieldChars, List.append_assoc, List.cons_append]
        exact hkey.separated (by decide) (hcuts.separated (by decide) Lexeme.cuts_nil)
      · exact Tree.evaluateMembers_cons_eq_ok_iff.mpr ⟨w, [], heval, rfl, rfl⟩
    | cons hnext hrest =>
      obtain ⟨us, trees, hcuts', hmembers, hevals⟩ := ih
      refine ⟨.text (Lexeme.rereadText key) :: .symbol ':' :: (ts ++ .symbol ',' :: us),
        (Lexeme.rereadText key, tree) :: trees, ?_, .more rfl hderives hmembers, ?_⟩
      · rw [Json.fieldChars_cons_cons]
        simp only [List.append_assoc, List.cons_append]
        exact hkey.separated (by decide) (hcuts.separated (by decide) hcuts')
      · exact Tree.evaluateMembers_cons_eq_ok_iff.mpr ⟨w, _, heval, hevals, rfl⟩

theorem Reread.array {items : List Json} {ws : List Value}
    (h : List.Forall₂ (Reread context) items ws) : Reread context (.array items) (.array ws) where
  evaluates := by
    obtain ⟨ts, trees, hcuts, hitems, hevals⟩ := exists_items h
    refine ⟨.symbol '[' :: ts, .array trees, ?_, .of_primary (.array hitems), ?_⟩
    · rw [Json.chars, List.cons_append]
      exact hcuts.mark (by decide)
    · exact Tree.evaluate_array_eq_ok_iff.mpr ⟨ws, hevals, rfl⟩
  kept := by
    refine Value.kept_array.mpr fun w hw => ?_
    obtain ⟨item, -, hitem⟩ := exists_of_forall₂ h hw
    exact hitem.kept
  fits hk := by
    rw [Value.ofJson, Value.itemsOfJson_eq_map] at hk ⊢
    have hitems := Value.kept_array.mp hk
    have hfits : List.Forall₂ (Fits Comparison.exact) ws (items.map Value.ofJson) := by
      refine List.forall₂_map_right_iff.mpr (forall₂_imp_of_mem h.flip fun w _ item hm hr => ?_)
      exact hr.fits (hitems _ (List.mem_map_of_mem hm))
    exact Comparison.fits_array [] (.inl (by rw [List.append_nil])) hfits fun _ => rfl

theorem Reread.object {fields : Fields Json} {members : List (String × Value)}
    (hs : Fields.Sorted (Value.fieldsOfJson fields))
    (h : List.Forall₂ (RereadMember context) fields members) :
    Reread context (.object fields) (.object (Fields.ofList members)) where
  evaluates := by
    obtain ⟨ts, trees, hcuts, hmembers, hevals⟩ := exists_members h
    refine ⟨.symbol '\x7b' :: ts, .object trees, ?_, .of_primary (.object hmembers), ?_⟩
    · rw [Json.chars, List.cons_append]
      exact hcuts.mark (by decide)
    · exact Tree.evaluate_object_eq_ok_iff.mpr ⟨members, hevals, rfl⟩
  kept := by
    have hmember {n : String × Value} (hn : n ∈ Fields.ofList members) :
        ∃ m, RereadMember context m n := by
      obtain ⟨m, -, hm⟩ := exists_of_forall₂ h (Fields.mem_of_mem_ofList hn)
      exact ⟨m, hm⟩
    refine Value.kept_object.mpr ⟨fun key hkey => ?_, fun n hn => ?_⟩
    · obtain ⟨n, hn, rfl⟩ := List.mem_map.mp hkey
      obtain ⟨m, hkey, -⟩ := hmember hn
      rw [hkey]
      exact Lexeme.kept_of_mem_rereadText
    · obtain ⟨m, -, hvalue⟩ := hmember hn
      exact hvalue.kept
  fits hk := by
    rw [Value.ofJson] at hk ⊢
    obtain ⟨hkeys, hvalues⟩ := Value.kept_object.mp hk
    have hpairs : List.Forall₂ (fun n m => n.1 = m.1 ∧ Fits Comparison.exact n.2 m.2) members
        (Value.fieldsOfJson fields) := by
      rw [Value.fieldsOfJson_eq_map] at hkeys hvalues ⊢
      refine List.forall₂_map_right_iff.mpr (forall₂_imp_of_mem h.flip fun n _ m hm hr => ?_)
      have hm' := List.mem_map_of_mem (f := fun m : String × Json => (m.1, Value.ofJson m.2)) hm
      refine ⟨?_, hr.2.fits (hvalues _ hm')⟩
      rw [hr.1, Lexeme.rereadText_of_kept (hkeys m.1 (List.mem_map_of_mem hm'))]
    have hsame := Fields.keys_eq_of_forall₂ hpairs
    have hsorted : Fields.Sorted members := by rwa [Fields.Sorted, hsame]
    rw [Fields.ofList_eq_self hsorted]
    refine Comparison.fits_object (fun m hm => ?_) fun _ key hkey => hsame ▸ hkey
    obtain ⟨n, hn, hkey, hfits⟩ := exists_of_forall₂ hpairs hm
    exact ⟨n.2, Fields.get?_of_mem hsorted (hkey ▸ hn), hfits⟩

mutual

theorem exists_reread : ∀ json : Json, (Value.ofJson json).Tidy → ∃ w, Reread context json w
  | .null, _ => ⟨_, .null⟩
  | .bool b, _ => ⟨_, .bool b⟩
  | .number n, _ => exists_reread_number n
  | .string s, _ => ⟨_, .string s⟩
  | .array items, h => by
    obtain ⟨ws, hitems⟩ := exists_reread_items items fun item hm => h.parts hm
    exact ⟨_, .array hitems⟩
  | .object fields, h => by
    obtain ⟨members, hmembers⟩ := exists_reread_members fields fun m hm =>
      h.parts (List.mem_map_of_mem hm)
    exact ⟨_, .object h.here hmembers⟩

theorem exists_reread_items : ∀ items : List Json,
    (∀ item ∈ Value.itemsOfJson items, item.Tidy) → ∃ ws, List.Forall₂ (Reread context) items ws
  | [], _ => ⟨[], .nil⟩
  | item :: items, h => by
    obtain ⟨hitem, hitems⟩ := List.forall_mem_cons.mp h
    obtain ⟨w, hw⟩ := exists_reread item hitem
    obtain ⟨ws, hws⟩ := exists_reread_items items hitems
    exact ⟨w :: ws, .cons hw hws⟩

theorem exists_reread_members : ∀ fields : List (String × Json),
    (∀ m ∈ Value.fieldsOfJson fields, m.2.Tidy) →
      ∃ members, List.Forall₂ (RereadMember context) fields members
  | [], _ => ⟨[], .nil⟩
  | (key, value) :: fields, h => by
    obtain ⟨hvalue, hfields⟩ := List.forall_mem_cons.mp h
    obtain ⟨w, hw⟩ := exists_reread value hvalue
    obtain ⟨members, hmembers⟩ := exists_reread_members fields hfields
    exact ⟨(Lexeme.rereadText key, w) :: members, .cons ⟨rfl, hw⟩ hmembers⟩

end

theorem Reread.evaluate_text (h : Reread context json w) : evaluate json.text context = .ok w := by
  obtain ⟨ts, tree, hcuts, hderives, heval⟩ := h.evaluates
  refine evaluate_eq_ok_iff.mpr ⟨ts, tree, ?_, hderives, heval⟩
  rw [Json.text, String.toList_ofList]
  exact hcuts.ofChars_eq

/-- The text of data is an expression, and its value strictly matches the data exactly if every
character in the texts of the data comes back from its escape. -/
theorem evaluate_text_matches_iff_kept (context : Context) {json : Json}
    (h : (Value.ofJson json).Tidy) :
    ∃ w, evaluate json.text context = .ok w ∧
      (compareValues ⟨true, []⟩ w (Value.ofJson json) = .ok () ↔ (Value.ofJson json).Kept) := by
  obtain ⟨w, hw⟩ : ∃ w, Reread context json w := exists_reread json h
  refine ⟨w, hw.evaluate_text, fun hmatches => ?_, fun hkept => hw.fits hkept ""⟩
  exact (Comparison.covers_of_compareAt hmatches).kept h hw.kept

theorem evaluate_text_matches_of_escaped :
    let json : Json :=
      .object [("a\"b", .array [.string "x\ty\n", .bool true, .null]), ("é\\", .null)]
    (Value.ofJson json).Tidy ∧ ∃ w, evaluate json.text (.ofBase .empty) = .ok w ∧
      compareValues ⟨true, []⟩ w (Value.ofJson json) = .ok () := by
  intro json
  have htidy : (Value.ofJson json).Tidy := by
    refine Value.throughout_object.mpr
      ⟨List.pairwise_pair.mpr (String.lt_iff_toList_lt.mpr (by decide)), ?_⟩
    simp [Value.ofJson, Value.itemsOfJson, Value.fieldsOfJson, Value.Keyed]
  have hkept : (Value.ofJson json).Kept := by
    simp [json, Value.ofJson, Value.itemsOfJson, Value.fieldsOfJson, Value.Kept, Value.texts,
      Fields.keys]
    decide
  obtain ⟨w, hw, hiff⟩ := evaluate_text_matches_iff_kept (.ofBase .empty) htidy
  exact ⟨htidy, w, hw, hiff.mpr hkept⟩

/-- A backspace is written as an escape of the letter that it is read as. -/
theorem evaluate_text_of_backspace :
    evaluate (Json.string "\x08").text (.ofBase .empty) = .ok (.string "b") ∧
      ¬ ∃ w, evaluate (Json.string "\x08").text (.ofBase .empty) = .ok w ∧
        compareValues ⟨true, []⟩ w (Value.ofJson (.string "\x08")) = .ok () := by
  have hreread : Lexeme.rereadText "\x08" = "b" := by decide
  have heval : evaluate (Json.string "\x08").text (.ofBase .empty) = .ok (.string "b") :=
    hreread ▸ (Reread.string "\x08").evaluate_text
  refine ⟨heval, ?_⟩
  rintro ⟨w, hw, hmatches⟩
  cases heval.symm.trans hw
  rw [compareValues, Value.ofJson, Comparison.compareAt,
    Comparison.compareScalar_eq_ok_iff] at hmatches
  exact absurd hmatches (by decide)

end Expression

end ApiContract
