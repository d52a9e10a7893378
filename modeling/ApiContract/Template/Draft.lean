import ApiContract.Template.Basic
import ApiContract.Template.Group
import ApiContract.Traverse

namespace ApiContract.Template

structure Draft where
  base : Path
  removals : List Path
  additions : List Group

namespace Draft

def pathAt (place : Span) (s : List Char) : Except Fault Path :=
  match Path.ofChars? s with
  | some path => .ok path
  | none => .error (.invalidPath place (String.ofList s))

/-- What the rest of the first line asks for: removals, and behind `with` the first addition. -/
structure Edits where
  removals : List Path
  additions : Option (List Char)

/-- The paths to remove, apart by commas; a semicolon may lead on to additions. -/
def readRemovals (place : Span) (rest : List Char) : Except Fault Edits :=
  let (list, tail) := (Text.cutFirst ';' rest).getD (rest, [])
  let tail := Text.trim tail
  match traverse (Text.pieces ',' list) fun item _ => pathAt place (Text.trim item) with
  | .error fault => .error fault
  | .ok removals =>
    if tail.isEmpty then .ok ⟨removals, none⟩
    else match MixinOpening.with? tail with
      | some rest => .ok ⟨removals, some (Text.trim rest)⟩
      | none => .error (.trailingText place (String.ofList tail))

def readEdits (place : Span) (opening : MixinOpening) : Except Fault Edits :=
  let rest := Text.trim opening.rest
  if opening.without then readRemovals place rest else .ok ⟨[], some rest⟩

/-- Lines below a mixin are indented by a tab, unless it stands beside a mark already. -/
def dedented : List Line → Except Fault (List Line)
  | [] => .ok []
  | line :: lines =>
    if line.isIndented then
      match dedented lines with
      | .error fault => .error fault
      | .ok block => .ok (line.dedent :: block)
    else .error (.invalidSyntax line.span)

def beside (number : Nat) (rest : List Char) : List Line :=
  if rest.isEmpty then [] else [⟨number, rest⟩]

/-- The lines of the additions: the rest of the first line, if there is any, and the lines below. -/
def block (first : Line) (rest : List Char) (more : List Line) (inline : Bool) :
    Except Fault (List Line) :=
  match if inline then .ok more else dedented more with
  | .error fault => .error fault
  | .ok below =>
    let lines := beside first.number rest ++ below
    if lines.isEmpty then .error (.emptyValue first.span) else .ok lines

def ofOpening (opening : MixinOpening) (first : Line) (more : List Line) (inline : Bool) :
    Except Fault Draft :=
  match pathAt first.span opening.base with
  | .error fault => .error fault
  | .ok base =>
    match readEdits first.span opening with
    | .error fault => .error fault
    | .ok ⟨removals, none⟩ =>
      if more.isEmpty then .ok ⟨base, removals, []⟩
      else .error (.expected (Line.spanOf first more) "a single line for a mixin without additions")
    | .ok ⟨removals, some rest⟩ =>
      match block first rest more inline with
      | .error fault => .error fault
      | .ok lines =>
        match Group.slots Opening.path? [] lines with
        | .error fault => .error fault
        | .ok groups => .ok ⟨base, removals, groups⟩

theorem weight_dedented {lines block : List Line} (h : dedented lines = .ok block) :
    Line.weight block ≤ Line.weight lines := by
  fun_induction dedented lines generalizing block with
  | case1 => cases h; exact Nat.le_refl _
  | case3 line lines _ b _ ih =>
    cases h
    have hi := ih ‹_›
    have hd := Line.length_dedent line
    simp only [Line.weight_cons]
    omega
  | _ => cases h

theorem weight_beside (number : Nat) (rest : List Char) :
    Line.weight (beside number rest) ≤ rest.length := by
  unfold beside
  split <;> simp [Line.weight]

theorem weight_block {first : Line} {rest : List Char} {more lines : List Line} {inline : Bool}
    (h : block first rest more inline = .ok lines) :
    Line.weight lines ≤ rest.length + Line.weight more := by
  simp only [block] at h
  split at h
  · cases h
  · rename_i below hb
    have hw : Line.weight below ≤ Line.weight more := by
      cases inline
      · exact weight_dedented hb
      · cases hb; exact Nat.le_refl _
    have hs := weight_beside first.number rest
    split at h
    · cases h
    · cases h
      rw [Line.weight_append]
      omega

theorem length_trim_le (s : List Char) : (Text.trim s).length ≤ s.length := by
  have h₁ : (Text.trimStart s).length ≤ s.length := (List.dropWhile_sublist Text.isBlank).length_le
  have h₂ : ((Text.trimStart s).reverse.dropWhile Text.isBlank).length ≤
      (Text.trimStart s).reverse.length := (List.dropWhile_sublist Text.isBlank).length_le
  simp only [Text.trim, Text.trimEnd, List.length_reverse] at *
  omega

theorem length_cutFirst {sep : Char} {s before after : List Char}
    (h : Text.cutFirst sep s = some (before, after)) : after.length < s.length := by
  induction s generalizing before with
  | nil => cases h
  | cons c s ih =>
    simp only [Text.cutFirst] at h
    split at h
    · cases h; simp
    · obtain ⟨⟨b, a⟩, hc, he⟩ := Option.map_eq_some_iff.mp h
      cases he
      exact Nat.lt_succ_of_lt (ih hc)

theorem length_readRemovals {place : Span} {rest first : List Char} {removals : List Path}
    (h : readRemovals place rest = .ok ⟨removals, some first⟩) : first.length ≤ rest.length := by
  have hcut : ((Text.cutFirst ';' rest).getD (rest, [])).2.length ≤ rest.length := by
    cases hc : Text.cutFirst ';' rest with
    | none => simp
    | some p => exact Nat.le_of_lt (@length_cutFirst _ _ p.1 p.2 hc)
  simp only [readRemovals] at h
  split at h
  · cases h
  · split at h
    · cases h
    · split at h
      · rename_i tail hw
        cases h
        have h₁ := length_trim_le tail
        have h₂ := length_trim_le ((Text.cutFirst ';' rest).getD (rest, [])).2
        have h₃ : tail.length + 4 = _ := MixinOpening.length_word? hw
        omega
      · cases h

theorem length_readEdits {place : Span} {opening : MixinOpening} {first : List Char}
    {removals : List Path} (h : readEdits place opening = .ok ⟨removals, some first⟩) :
    first.length ≤ opening.rest.length := by
  have ht := length_trim_le opening.rest
  simp only [readEdits] at h
  split at h
  · exact Nat.le_trans (length_readRemovals h) ht
  · cases h
    exact ht

theorem weight_lt_of_mem_additions {opening : MixinOpening} {first : Line} {more : List Line}
    {inline : Bool} {draft : Draft} (ho : MixinOpening.ofChars? first.text = some opening)
    (h : ofOpening opening first more inline = .ok draft) {group : Group}
    (hg : group ∈ draft.additions) :
    Line.weight group.lines < Line.weight (first :: more) := by
  have hl := MixinOpening.length_ofChars? ho
  simp only [ofOpening] at h
  split at h
  · cases h
  · split at h
    · cases h
    · split at h
      · cases h
        cases hg
      · cases h
    · rename_i removals rest he
      have hr := length_readEdits he
      split at h
      · cases h
      · rename_i lines hb
        have hw := weight_block hb
        split at h
        · cases h
        · rename_i groups hs
          cases h
          have := Group.weight_lt_of_mem_slots (fun _ _ => Opening.length_path?) hs hg
          rw [Line.weight_cons]
          omega

end Draft

end ApiContract.Template
