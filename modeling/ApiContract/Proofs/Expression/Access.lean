import ApiContract.Proofs.Expression.Agreement
import ApiContract.Proofs.Expression.Names
import ApiContract.Proofs.Number.Conversion
import ApiContract.Proofs.Value.Obstacles

namespace ApiContract

/-- A key that is an identifier, or an index that a double can be. -/
def Segment.Accessible : Segment → Prop
  | .key name => Identifier.isValid name.toList = true
  | .index position => position < 2 ^ 53

instance : (segment : Segment) → Decidable segment.Accessible
  | .key name => inferInstanceAs (Decidable (Identifier.isValid name.toList = true))
  | .index position => inferInstanceAs (Decidable (position < 2 ^ 53))

namespace Expression

def accessText : Segment → String
  | .key name => "." ++ name
  | .index position => "[" ++ toString position ++ "]"

/-- A name, and behind it what stands for the segments of a path. -/
def accessed (name : String) (path : Path) : String := name ++ String.join (path.map accessText)

namespace Lexeme

variable {c : Char} {s name rest : List Char}

def ofSegment : Segment → List Lexeme
  | .key name => [.symbol '.', .name name]
  | .index position => [.symbol '[', .number (Double.ofInt position), .symbol ']']

theorem head_accessText {path : Path} (c : Char)
    (hc : c ∈ (path.flatMap fun segment => (accessText segment).toList).head?) :
    c = '.' ∨ c = '[' := by
  cases path with
  | nil => cases hc
  | cons segment path =>
    cases segment with
    | key name =>
      obtain rfl : c = '.' := by simpa [accessText, eq_comm] using hc
      exact .inl rfl
    | index position =>
      obtain rfl : c = '[' := by simpa [accessText, eq_comm] using hc
      exact .inr rfl

theorem not_isNamePart_of_mem_head {path : Path} : ∀ c ∈
    (path.flatMap fun segment => (accessText segment).toList).head?, isNamePart c = false := by
  intro c hc
  obtain rfl | rfl := head_accessText c hc <;> decide

theorem ofChars_index {position : Nat} (h : position < 2 ^ 53) :
    ofChars ((accessText (.index position)).toList ++ rest) =
      (ofChars rest).map (ofSegment (.index position) ++ ·) := by
  obtain ⟨x, hx, htext, hdouble⟩ := Double.exists_numeral_toDigits (h.trans (by decide : _ < 2 ^ 64))
  have hlist : (accessText (.index position)).toList ++ rest = '[' :: (x.text ++ ']' :: rest) := by
    simp [accessText, ← htext]
  rw [hlist, ofChars_mark (by decide), cuts_numeral hx _ (apart_cons (by decide)),
    ofChars_mark (by decide), ofSegment, Double.ofInt_natCast, hdouble]
  cases ofChars rest <;> rfl

theorem ofChars_accesses {path : Path} (h : ∀ segment ∈ path, segment.Accessible) :
    ofChars (path.flatMap fun segment => (accessText segment).toList) =
      .ok (path.flatMap ofSegment) := by
  induction path with
  | nil => rw [List.flatMap_nil, ofChars.eq_def]; rfl
  | cons segment path ih =>
    obtain ⟨hsegment, hpath⟩ := List.forall_mem_cons.mp h
    rw [List.flatMap_cons, List.flatMap_cons]
    cases segment with
    | key name =>
      have hpoint : ".".toList = ['.'] := rfl
      rw [accessText, String.toList_append, hpoint, List.append_assoc, List.singleton_append,
        ofChars_member (isName_of_isValid hsegment) not_isNamePart_of_mem_head, ih hpath,
        String.ofList_toList]
      rfl
    | index position =>
      rw [ofChars_index hsegment, ih hpath]
      rfl

theorem ofChars_accessed {name : String} {path : Path} (hn : Identifier.isValid name.toList = true)
    (h : ∀ segment ∈ path, segment.Accessible) : ofChars (accessed name path).toList =
      .ok (.name name :: path.flatMap ofSegment) := by
  have hlist : (accessed name path).toList =
      name.toList ++ path.flatMap fun segment => (accessText segment).toList := by
    simp [accessed, List.flatMap_map]
  rw [hlist, ofChars_identifier hn not_isNamePart_of_mem_head, ofChars_accesses h,
    String.ofList_toList]
  rfl

end Lexeme

variable {context : Context} {path place : Path} {value part found : Value} {segment : Segment}
  {name key walked : String} {i : Nat} {ts : List Lexeme} {left : Tree}

theorem exists_finite_ofInt (h : i < 2 ^ 53) : ∃ whole,
    finite (Double.ofInt i) = .ok (.number (.integer i whole)) := by
  have hwhole : Number.Whole i := by
    constructor
    · simp [power]
    · simp [power]
      omega
  have hsmall : (i : Int).natAbs < power 2 53 := h
  have hwritten : (Double.ofInt i).toInt? = some (i : Int) := Double.toInt?_ofInt h
  refine ⟨hwhole, ?_⟩
  simp only [finite, Value.ofDouble?, Number.ofDouble?, hwritten, if_pos hsmall, Number.ofInt?,
    dif_pos hwhole, Option.map_some]

theorem text_integer {whole : Number.Whole i} :
    (Value.number (.integer i whole)).text = toString i := by
  have hsign : decide ((i : Int) < 0) = false := by simp
  apply String.toList_inj.mp
  simp [Value.text, Number.text, Number.chars, Double.signText]

theorem member_of_leads (h : Value.Leads (.key key) value segment)
    (hp : value.part? segment = some part) : member value key = .ok part := by
  cases h with
  | member =>
    rw [Value.part?_key_object] at hp
    have hget : Fields.get? key _ = some part := hp
    rw [member, hget]
    rfl

theorem element_of_leads {whole : Number.Whole i} (hi : i < 2 ^ 53)
    (h : Value.Leads (.index i) value segment) (hp : value.part? segment = some part) :
    element value (.number (.integer i whole)) = .ok part := by
  cases h with
  | @member head fields =>
    have hget : Fields.get? (toString i) fields = some part := hp
    have hmember : element (.object fields) (.number (.integer i whole)) =
        member (.object fields) (Value.number (.integer i whole)).text := rfl
    rw [hmember, text_integer, member, hget]
    rfl
  | @item wrap items i arranged =>
    have hat : itemAt items (.number (.integer i whole)) = .ok part := by
      rw [arranged.part?_index] at hp
      have hwritten : (Double.ofInt i).toInt? = some (i : Int) := Double.toInt?_ofInt hi
      simp only [itemAt, Value.toDouble?, Option.bind_some, Number.toDouble, hwritten, hp,
        Option.getD_some]
    cases arranged <;> exact hat

/-- Behind an expression that has a value, what stands for a path makes an expression that has the
value which a walk along the path finds. -/
theorem exists_derives_accesses (hpath : ∀ segment ∈ path, segment.Accessible)
    (hwalk : Value.LeadsTo path value place found) (hleft : Derives context .access ts left)
    (hvalue : left.evaluate context = .ok value) :
    ∃ tree, Derives context .access (ts ++ path.flatMap Lexeme.ofSegment) tree ∧
      tree.evaluate context = .ok found := by
  induction hwalk generalizing ts left with
  | here value =>
    refine ⟨left, ?_, hvalue⟩
    rwa [List.flatMap_nil, List.append_nil]
  | @onward head segment path place value inner found leads part _ ih =>
    obtain ⟨hhead, hrest⟩ := List.forall_mem_cons.mp hpath
    rw [List.flatMap_cons, ← List.append_assoc]
    cases head with
    | key key =>
      have hmember := Tree.evaluate_member_eq_ok_iff.mpr ⟨value, hvalue, member_of_leads leads part⟩
      exact ih hrest (.behind hleft (.member (Tree.not_isOpen_of_evaluate hvalue))) hmember
    | index i =>
      obtain ⟨whole, hnumber⟩ := exists_finite_ofInt hhead
      have hindex : (Tree.number (Double.ofInt i)).evaluate context =
          .ok (.number (.integer i whole)) := by
        rw [Tree.evaluate, operate_eq_ok_iff, hnumber]
      have helement := Tree.evaluate_element_eq_ok_iff.mpr
        ⟨value, _, hvalue, hindex, element_of_leads hhead leads part⟩
      exact ih hrest (.behind hleft (.element (.of_primary .number))) helement

/-- A walk along a path of keys and indices, from the value of a name, finds the value of the
expression that is made of the name and what stands for the path. -/
theorem evaluate_accessed (context : Context) (walked : String)
    (hname : Identifier.isValid name.toList = true)
    (hfree : name ∉ ["true", "false", "null", "undefined"]) (hbound : context.get? name = some value)
    (hpath : ∀ segment ∈ path, segment.Accessible)
    (hwalk : value.navigate walked path = .ok found) :
    evaluate (accessed name path) context = .ok found := by
  obtain ⟨place, hplace⟩ := Value.navigate_eq_ok_iff.mp hwalk
  have hconstant : constant? name = none := constant?_eq_none hfree
  have hresolved : context.resolve? name = some (.value value) := by
    rw [Context.resolve?, hbound]
  have hvalue : (Tree.name name).evaluate context = .ok value :=
    Tree.evaluate_name_eq_ok_iff.mpr hresolved
  have hderives : Derives context .access [.name name] (.name name) :=
    .primary (.name hconstant .done)
  obtain ⟨tree, htree, hfound⟩ := exists_derives_accesses hpath hplace hderives hvalue
  exact evaluate_eq_ok_iff.mpr
    ⟨_, tree, Lexeme.ofChars_accessed hname hpath, .product (.signed (.access htree)), hfound⟩

theorem evaluate_accessed_of_digits :
    let value := Value.object [("rows", .ordered [.null, .object [("0", .bool true)]])]
    let context := (Context.ofBase Base.empty).set "x" value
    let path : Path := [.key "rows", .index 1, .index 0]
    context.get? "x" = some value ∧ value.navigate "x" path = .ok (.bool true) ∧
      accessed "x" path = "x.rows[1][0]" ∧
      evaluate (accessed "x" path) context = .ok (.bool true) := by
  intro value context path
  have hpath : ∀ segment ∈ path, segment.Accessible := by
    simp only [path, List.forall_mem_cons]
    exact ⟨by decide, by decide +kernel, by decide +kernel, List.forall_mem_nil _⟩
  exact ⟨rfl, rfl, by decide, evaluate_accessed context "x" (by decide) (by decide) rfl hpath rfl⟩

end Expression

end ApiContract
