import Mathlib.Data.List.Infix
import ApiContract.Proofs.Expression.Agreement
import ApiContract.Proofs.Expression.Names
import ApiContract.Proofs.Fields

namespace ApiContract

theorem Context.isNamespace_of_get? {context : Context} {name rest : String} {helper : Helper}
    (h : Fields.get? (name ++ "." ++ rest) context.base.helpers = some helper) :
    context.isNamespace name = true := by
  have hmem : name ++ "." ++ rest ∈ context.base.helpers.keys :=
    List.mem_map_of_mem (Fields.mem_of_get? h)
  have hpoint : ".".toList = ['.'] := rfl
  rw [isNamespace, List.any_eq_true]
  refine ⟨_, hmem, ?_⟩
  simp [hpoint, List.take_append, ← String.length_toList]

namespace Expression

def dotted (first : String) (more : List String) : String := ".".intercalate (first :: more)

section Dotted

variable {context : Context} {first part : String} {front more : List String} {helper : Helper}

theorem dotted_nil : dotted first [] = first := by
  simp [dotted]

theorem dotted_cons : dotted first (part :: more) = dotted (first ++ "." ++ part) more := by
  cases more with
  | nil => simp [dotted, String.intercalate_cons_cons]
  | cons next more => simp [dotted, String.intercalate_cons_cons, String.append_assoc]

theorem dotted_append : dotted first (front ++ part :: more) =
    dotted first front ++ "." ++ dotted part more := by
  induction front generalizing first with
  | nil => rw [List.nil_append, dotted_nil, dotted, dotted, String.intercalate_cons_cons]
  | cons next front ih => rw [List.cons_append, dotted_cons, dotted_cons, ih]

theorem toList_dotted : (dotted first more).toList =
    first.toList ++ more.flatMap fun part => '.' :: part.toList := by
  have hpoint : ".".toList = ['.'] := rfl
  induction more generalizing first with
  | nil => simp [dotted_nil]
  | cons part more ih => simp [dotted_cons, ih, hpoint]

theorem opens_of_registered
    (hregistered : Fields.get? (dotted first more) context.base.helpers = some helper)
    (hunbound : ∀ front, front <+: more → context.get? (dotted first front) = none)
    (hfront : front ++ [part] <+: more) : Opens context (dotted first front) := by
  obtain ⟨behind, rfl⟩ := hfront
  rw [List.append_assoc, List.singleton_append] at hregistered hunbound
  rw [dotted_append] at hregistered
  exact ⟨hunbound front (List.prefix_append _ _), Context.isNamespace_of_get? hregistered⟩

theorem extends_dotted
    (hopens : ∀ front part, front ++ [part] <+: more → Opens context (dotted first front)) :
    Extends context first (more.flatMap fun part => [.symbol '.', .name part])
      (dotted first more) := by
  induction more generalizing first with
  | nil =>
    rw [dotted_nil]
    exact .done
  | cons part more ih =>
    have hfirst : Opens context first := by
      have hopen := hopens [] part (List.prefix_append [part] more)
      rwa [dotted_nil] at hopen
    rw [dotted_cons]
    refine .more hfirst (ih fun front next hfront => ?_)
    rw [← dotted_cons]
    exact hopens (part :: front) next ((List.prefix_cons_inj part).mpr hfront)

end Dotted

namespace Lexeme

variable {c : Char} {s rest : List Char} {ts : List Lexeme} {lexeme : Lexeme}

/-- Behind some lexemes of a text stand slashes that start a comment. -/
def HasComment (s : List Char) : Prop :=
  ∃ front ts c rest, s = front ++ c :: rest ∧ CutTo front ts (c :: rest) ∧ StartsComment c rest

theorem HasComment.cons_blank (hc : Text.isBlank c = true) (h : HasComment s) :
    HasComment (c :: s) := by
  obtain ⟨front, ts, d, rest, rfl, hcut, hstarts⟩ := h
  exact ⟨c :: front, ts, d, rest, rfl, .blank hc hcut, hstarts⟩

theorem HasComment.cons_lexeme (hb : Text.isBlank c = false) (hc : ¬ StartsComment c s)
    (hcut : (first c s).map Reading.pair = .ok (lexeme, rest)) (h : HasComment rest) :
    HasComment (c :: s) := by
  obtain ⟨front, ts, d, behind, rfl, hmore, hstarts⟩ := h
  obtain ⟨front', hfront, hall⟩ := hmore.exists_cons hb hc hcut
  exact ⟨front', lexeme :: ts, d, behind, hfront, hall, hstarts⟩

theorem cutTo_of_not_hasComment (h : ofChars s = .ok ts) (hnone : ¬ HasComment s) :
    CutTo s ts [] := by
  fun_induction ofChars s generalizing ts with
  | case1 =>
    cases h
    exact .here
  | case2 c s hblank ih => exact .blank hblank (ih h fun hs => hnone (hs.cons_blank hblank))
  | case3 c s hblank hcomment =>
    have hstarts : StartsComment c s := startsComment_iff.mp hcomment
    exact absurd ⟨[], [], c, s, rfl, .here, hstarts⟩ hnone
  | case4 c s hblank hcomment e hfirst => cases h
  | case5 c s hblank hcomment r hfirst _ e hrest => cases h
  | case6 c s hblank hcomment r hfirst _ lexemes hrest ih =>
    cases h
    have hb : Text.isBlank c = false := Bool.eq_false_iff.mpr hblank
    have hstarts : ¬ StartsComment c s := mt startsComment_iff.mpr hcomment
    have hcut : (first c s).map Reading.pair = .ok (r.value, r.rest) := by
      rw [hfirst]
      rfl
    have hmore := ih hrest fun hs => hnone (hs.cons_lexeme hb hstarts hcut)
    rw [← List.append_nil r.rest] at hcut
    obtain ⟨front, hfront, hall⟩ := hmore.exists_cons hb hstarts hcut
    rw [List.append_nil] at hfront
    rwa [hfront]

theorem not_hasComment_of_not_isInfix (h : ¬ ['/', '/'] <:+: s) : ¬ HasComment s := by
  rintro ⟨front, ts, c, rest, rfl, -, rfl, hrest⟩
  obtain ⟨behind, rfl⟩ := List.head?_eq_some_iff.mp hrest
  exact h ⟨front, behind, by simp⟩

theorem ofChars_append_boundary (h : ofChars s = .ok ts) (hnone : ¬ HasComment s)
    (hc : isBoundary c = true) : ofChars (s ++ c :: rest) = (ofChars (c :: rest)).map (ts ++ ·) :=
  (cutTo_of_not_hasComment h hnone).ofChars_append (.cons hc)

end Lexeme

open Lexeme

variable {context : Context} {name first source : String} {more sources : List String}
  {values : List Value} {helper : Helper}

/-- Each text is an expression without a comment, and has its value in the list. -/
def Provides (context : Context) (sources : List String) (values : List Value) : Prop :=
  List.Forall₂ (fun source value => ¬ HasComment source.toList ∧
    evaluate source context = .ok value) sources values

def argumentsText (sources : List String) : String := ",".intercalate sources ++ ")"

def called (name : String) (sources : List String) : String :=
  name ++ "(" ++ argumentsText sources

theorem exists_argumentTail (h : Provides context (source :: sources) values) : ∃ ts args,
    ofChars (argumentsText (source :: sources)).toList = .ok ts ∧
      ArgumentTail context ts args ∧ Tree.evaluateAll context args = .ok values := by
  induction sources generalizing source values with
  | nil =>
    obtain ⟨value, _, ⟨hnone, hvalue⟩, hnil, rfl⟩ := List.forall₂_cons_left_iff.mp h
    obtain ⟨ts, tree, hts, htree, hv⟩ := evaluate_eq_ok_iff.mp hvalue
    have htext : (argumentsText [source]).toList = source.toList ++ [')'] := by
      simp [argumentsText]
    refine ⟨ts ++ [.symbol ')'], [tree], ?_, .last htree, ?_⟩
    · rw [htext, ofChars_append_boundary hts hnone (by decide), ofChars_mark (by decide),
        ofChars_nil]
      rfl
    · exact Tree.evaluateAll_cons_eq_ok_iff.mpr ⟨value, [], hv, rfl, by cases hnil; rfl⟩
  | cons next sources ih =>
    obtain ⟨value, more, ⟨hnone, hvalue⟩, hmore, rfl⟩ := List.forall₂_cons_left_iff.mp h
    obtain ⟨ts, tree, hts, htree, hv⟩ := evaluate_eq_ok_iff.mp hvalue
    obtain ⟨us, args, hus, htail, hargs⟩ := ih hmore
    have htext : (argumentsText (source :: next :: sources)).toList =
        source.toList ++ ',' :: (argumentsText (next :: sources)).toList := by
      simp [argumentsText, String.intercalate_cons_cons]
    refine ⟨ts ++ .symbol ',' :: us, tree :: args, ?_, .more htree htail, ?_⟩
    · rw [htext, ofChars_append_boundary hts hnone (by decide), ofChars_mark (by decide), hus]
      rfl
    · exact Tree.evaluateAll_cons_eq_ok_iff.mpr ⟨value, more, hv, hargs, rfl⟩

theorem exists_arguments (h : Provides context sources values) : ∃ ts args,
    ofChars ('(' :: (argumentsText sources).toList) = .ok ts ∧ Arguments context ts args ∧
      Tree.evaluateAll context args = .ok values := by
  have hopen : ofChars ('(' :: (argumentsText sources).toList) =
      (ofChars (argumentsText sources).toList).map (.symbol '(' :: ·) :=
    ofChars_mark (by decide)
  rw [hopen]
  cases sources with
  | nil =>
    cases h
    have hclose : ofChars (argumentsText []).toList = .ok [.symbol ')'] := by
      have htext : (argumentsText []).toList = [')'] := by decide
      rw [htext, ofChars_mark (by decide), ofChars_nil]
      rfl
    rw [hclose]
    exact ⟨_, [], rfl, .none, rfl⟩
  | cons source sources =>
    obtain ⟨ts, args, hts, htail, hargs⟩ := exists_argumentTail h
    rw [hts]
    exact ⟨_, args, rfl, .some htail, hargs⟩

theorem ofChars_called {ts : List Lexeme}
    (hparts : ∀ part ∈ first :: more, isName part.toList = true)
    (h : ofChars ('(' :: (argumentsText sources).toList) = .ok ts) :
    ofChars (called (dotted first more) sources).toList =
      .ok (.name first :: ((more.flatMap fun part => [.symbol '.', .name part]) ++ ts)) := by
  obtain ⟨hfirst, hmore⟩ := List.forall_mem_cons.mp hparts
  have hopen : "(".toList = ['('] := rfl
  have htext : (called (dotted first more) sources).toList = first.toList ++
      ((more.flatMap fun part => '.' :: part.toList) ++ '(' :: (argumentsText sources).toList) := by
    simp [called, toList_dotted, hopen]
  have hhead : ∀ c ∈ ((more.flatMap fun part => '.' :: part.toList) ++
      '(' :: (argumentsText sources).toList).head?, isNamePart c = false := by
    cases more <;> (rintro c ⟨⟩; decide)
  have hbehind : ∀ c ∈ ('(' :: (argumentsText sources).toList).head?, isNamePart c = false := by
    rintro c ⟨⟩
    decide
  rw [htext, ofChars_name hfirst hhead, ofChars_members hmore hbehind, h, String.ofList_toList]
  rfl

theorem named_eq_error {s full message : String} {args : List Value} {ts mid rest : List Lexeme}
    (reaches : (extendName context s ts).pair = (full, mid))
    (bound : context.resolve? full = some (.helper helper))
    (reads : Reads (arguments context mid) args rest) (result : helper args = .error message) :
    named context s ts = .error (.helper full message) := by
  rw [named]
  cases reaches
  simp only [bound, symbol?_of_reads_arguments reads, if_true]
  obtain ⟨within, hreads⟩ := reads
  rw [hreads, ok_bind]
  simp only [result]

theorem ofLexemes_eq_error {s : String} {e : Error} {ts : List Lexeme}
    (free : constant? s = none) (h : named context s ts = .error e) :
    ofLexemes context (.name s :: ts) = .error e := by
  have hprimary : primary context (.name s :: ts) = .error e := by
    rw [primary]
    simp only [free]
    exact h
  have hsigned : signed context (.name s :: ts) = .error e := by
    rw [signed, hprimary, error_bind]
    all_goals
      rintro rest ⟨⟩
  rw [ofLexemes, sum, product, hsigned]
  rfl

/-- A helper is called by its dotted name, with the values of the arguments in order, if no front of
the name is bound to a value. Other helpers do not matter, whether their names are fronts of this
one or go on behind it. -/
theorem evaluate_called (context : Context)
    (hparts : ∀ part ∈ first :: more, isName part.toList = true)
    (hfree : first ∉ ["true", "false", "null", "undefined"])
    (hregistered : Fields.get? (dotted first more) context.base.helpers = some helper)
    (hunbound : ∀ front, front <+: more → context.get? (dotted first front) = none)
    (hargs : Provides context sources values) :
    evaluate (called (dotted first more) sources) context =
      (helper values).mapError (.helper (dotted first more)) := by
  have hconstant : constant? first = none := constant?_eq_none hfree
  have hbound : context.resolve? (dotted first more) = some (.helper helper) := by
    rw [Context.resolve?, hunbound more (List.prefix_refl more), hregistered]
    rfl
  have hextends := extends_dotted fun front part hfront =>
    opens_of_registered hregistered hunbound hfront
  obtain ⟨ts, args, hts, harguments, hvalues⟩ := exists_arguments hargs
  have hlexemes := ofChars_called hparts hts
  cases hresult : helper values with
  | ok value =>
    apply evaluate_eq_ok_iff.mpr
    refine ⟨_, .call (dotted first more) args, hlexemes, ?_, ?_⟩
    · exact .of_primary (.call hconstant hextends harguments)
    · exact Tree.evaluate_call_eq_ok_iff.mpr ⟨helper, values, hbound, hvalues, hresult⟩
  | error message =>
    have hreads : Reads (arguments context (ts ++ [])) values [] :=
      complete_arguments (fun _ _ _ => complete) (Nat.le_succ _) harguments hvalues
    rw [List.append_nil] at hreads
    have hhead : ts.head? ≠ some (.symbol '.') := by
      cases harguments <;> simp
    have hreaches := extendName_of_extends hextends fun _ => hhead
    rw [evaluate, hlexemes]
    exact ofLexemes_eq_error hconstant (named_eq_error hreaches hbound hreads hresult)

/-- A comma inside of an argument, and helpers whose names are a front of this one and go on behind
it. -/
theorem evaluate_called_of_overlaps :
    let helper : Helper := fun values => .ok (.array values)
    let base := ((Base.empty.withHelper "a" fun _ => .error "a").withHelper "a.b" helper).withHelper
      "a.b.c" fun _ => .error "c"
    let context := (Context.ofBase base).set "n" (.bool true)
    let values := [.bool true, .array [.bool true, .string "x"]]
    Provides context ["n", "[n,'x']"] values ∧
      called (dotted "a" ["b"]) ["n", "[n,'x']"] = "a.b(n,[n,'x'])" ∧
      evaluate (called (dotted "a" ["b"]) ["n", "[n,'x']"]) context = .ok (.array values) := by
  have hn : ofChars "n".toList = .ok [.name "n"] := by
    have hcut := @ofChars_name "n".toList [] (by decide) nofun
    rwa [List.append_nil, ofChars_nil] at hcut
  have hlist : ofChars "[n,'x']".toList =
      .ok [.symbol '[', .name "n", .symbol ',', .text "x", .symbol ']'] := by decide +kernel
  intro helper base context values
  have hname : evaluate "n" context = .ok (.bool true) :=
    evaluate_eq_ok_iff.mpr ⟨_, .name "n", hn, .of_primary (.name rfl .done), rfl⟩
  have hitems : Derives context .sum _ (.array [.name "n", .text "x"]) :=
    .of_primary (.array (.more (.of_primary (.name rfl .done)) (.last (.of_primary .text))))
  have harray : evaluate "[n,'x']" context = .ok (.array [.bool true, .string "x"]) :=
    evaluate_eq_ok_iff.mpr ⟨_, _, hlist, hitems, rfl⟩
  have hinfix : ¬ ['/', '/'] <:+: "[n,'x']".toList := by simp [List.infix_cons_iff]
  have hargs : Provides context ["n", "[n,'x']"] values :=
    .cons ⟨not_hasComment_of_not_isInfix (by decide), hname⟩
      (.cons ⟨not_hasComment_of_not_isInfix hinfix, harray⟩ .nil)
  have hunbound : ∀ front, front <+: ["b"] → context.get? (dotted "a" front) = none := by
    intro front hfront
    have hmem : front ∈ [[], ["b"]] := (List.mem_inits front ["b"]).mpr hfront
    simp only [List.mem_cons, List.not_mem_nil, or_false] at hmem
    obtain rfl | rfl := hmem <;> rfl
  refine ⟨hargs, by decide, ?_⟩
  exact evaluate_called context (by decide) (by decide) rfl hunbound hargs

end Expression

end ApiContract
