import ApiContract.Source.Fault
import ApiContract.Template.Mark

namespace ApiContract.Template

/-- What a mark and the indented lines below it say. When something stands beside the mark, the
group is inline: its lines below are as deep as the first one. -/
structure Group where
  name : List Char
  optional : Bool
  origin : Span
  inline : Bool
  lines : List Line

namespace Group

def ofOpening (opening : Opening) (line : Line) (below : List Line) : Group :=
  let inline := !(Text.trim opening.rest).isEmpty
  let beside : List Line := if inline then [⟨line.number, opening.rest⟩] else []
  ⟨opening.name, opening.optional, line.span, inline, beside ++ below.map Line.dedent⟩

def below (lines : List Line) : List Line := lines.takeWhile Line.isIndented

def beyond (lines : List Line) : List Line := lines.dropWhile Line.isIndented

theorem length_beyond_le (lines : List Line) : (beyond lines).length ≤ lines.length :=
  (List.dropWhile_sublist Line.isIndented).length_le

def bullets : List Line → Except Fault (List Group)
  | [] => .ok []
  | line :: lines =>
    match line.text with
    | '*' :: '\t' :: rest =>
      match bullets (beyond lines) with
      | .error fault => .error fault
      | .ok groups => .ok (ofOpening ⟨[], false, rest⟩ line (below lines) :: groups)
    | '*' :: _ => .error (.expectedTab line.span)
    | _ => .error (.invalidSyntax line.span)
termination_by lines => lines.length
decreasing_by exact Nat.lt_succ_of_le (length_beyond_le lines)

/-- Slots with names of their own. The names seen before come with the place of each. -/
def slots (opening? : List Char → Option Opening) (seen : List (List Char × Span)) :
    List Line → Except Fault (List Group)
  | [] => .ok []
  | line :: lines =>
    match opening? line.text with
    | none =>
      if seen.isEmpty then .error (.invalidSyntax line.span)
      else .error (.expected line.span "a \"key:\" line")
    | some opening =>
      match seen.lookup opening.name with
      | some earlier => .error (.duplicateKey earlier line.span (String.ofList opening.name))
      | none =>
        match slots opening? (seen ++ [(opening.name, line.span)]) (beyond lines) with
        | .error fault => .error fault
        | .ok groups => .ok (ofOpening opening line (below lines) :: groups)
termination_by lines => lines.length
decreasing_by exact Nat.lt_succ_of_le (length_beyond_le lines)

theorem weight_ofOpening_le (opening : Opening) (line : Line) (lines : List Line) :
    Line.weight (ofOpening opening line (below lines)).lines + Line.weight (beyond lines) ≤
      opening.rest.length + Line.weight lines := by
  have hb := Line.weight_map_dedent_le (below lines)
  have hw := Line.weight_takeWhile_add_dropWhile Line.isIndented lines
  simp only [below, beyond] at *
  simp only [ofOpening, Line.weight_append]
  split
  · simp only [Line.weight_cons, Line.weight_nil]
    omega
  · simp only [Line.weight_nil]
    omega

theorem weight_lt_of_mem_bullets {lines : List Line} {groups : List Group}
    (h : bullets lines = .ok groups) {group : Group} (hg : group ∈ groups) :
    Line.weight group.lines < Line.weight lines := by
  fun_induction bullets lines generalizing groups with
  | case1 =>
    cases h
    cases hg
  | case3 line lines rest hl gs _ ih =>
    have hw := weight_ofOpening_le ⟨[], false, rest⟩ line lines
    have hr : line.text.length = rest.length + 2 := congrArg List.length hl
    rw [Line.weight_cons, hr]
    cases h
    rcases List.mem_cons.mp hg with rfl | hg
    · simp only at hw
      omega
    · have hi := ih ‹_› hg
      simp only at hw
      omega
  | _ => cases h

theorem weight_lt_of_mem_slots {opening? : List Char → Option Opening}
    (hlt : ∀ s o, opening? s = some o → o.rest.length < s.length)
    {seen : List (List Char × Span)} {lines : List Line} {groups : List Group}
    (h : slots opening? seen lines = .ok groups) {group : Group} (hg : group ∈ groups) :
    Line.weight group.lines < Line.weight lines := by
  fun_induction slots opening? seen lines generalizing groups with
  | case1 =>
    cases h
    cases hg
  | case6 seen line lines opening hl _ gs _ ih =>
    have hw := weight_ofOpening_le opening line lines
    have hr := hlt _ _ hl
    rw [Line.weight_cons]
    cases h
    rcases List.mem_cons.mp hg with rfl | hg
    · omega
    · have hi := ih ‹_› hg
      omega
  | _ => cases h

end Group

end ApiContract.Template
