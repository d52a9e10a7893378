import ApiContract.Template.Draft

namespace ApiContract.Template

/-- A line by itself: an empty object or array, or an expression without the blanks around it. -/
def ofLine (line : Line) : Except Fault Template :=
  let text := Text.trim line.text
  if text.isEmpty then .error (.emptyValue line.span)
  else if text = "\x7b\x7d".toList then .ok (object [])
  else if text = "[]".toList then .ok (array [])
  else .ok (expression (String.ofList text))

def ofGroups (entries : List (String × Slot Template)) : Template := object (Fields.ofList entries)

/-- The template that some lines describe. Without any lines the fault is at their origin. Beside a
mark the lines after the first are as deep as the first one. -/
def ofLines (lines : List Line) (origin : Span) (inline : Bool) : Except Fault Template :=
  match lines with
  | [] => .error (.emptyValue origin)
  | first :: more =>
    if first.text.head? = some '*' then
      match _h : Group.bullets (first :: more) with
      | .error fault => .error fault
      | .ok groups =>
        match traverse groups fun g _ => ofLines g.lines g.origin g.inline with
        | .error fault => .error fault
        | .ok items => .ok (array items)
    else if isKeyLine first.text then
      match _h : Group.slots Opening.key? [] (first :: more) with
      | .error fault => .error fault
      | .ok groups =>
        match traverse groups fun g _ => do
          let value ← ofLines g.lines g.origin g.inline
          .ok (String.ofList g.name, Slot.mk g.optional value) with
        | .error fault => .error fault
        | .ok entries => .ok (ofGroups entries)
    else match _ho : MixinOpening.ofChars? first.text with
      | some opening =>
        match _h : Draft.ofOpening opening first more inline with
        | .error fault => .error fault
        | .ok draft =>
          match traverse draft.additions fun g _ => do
            let path ← Draft.pathAt g.origin g.name
            let value ← ofLines g.lines g.origin g.inline
            .ok (path, Slot.mk g.optional value) with
          | .error fault => .error fault
          | .ok additions => .ok (mixin draft.base draft.removals additions)
      | none =>
        if more.isEmpty then ofLine first else .error (.invalidSyntax (Line.spanOf first more))
termination_by Line.weight lines
decreasing_by
  · exact Group.weight_lt_of_mem_bullets _h ‹_›
  · exact Group.weight_lt_of_mem_slots (fun _ _ => Opening.length_key?) _h ‹_›
  · exact Draft.weight_lt_of_mem_additions _ho _h ‹_›

/-- The template of a block; the origin stands for it when it has no lines. -/
def ofBlock (lines : List Line) (origin : Span) : Except Fault Template := ofLines lines origin false

end ApiContract.Template
