import ApiContract.Fault.Window
import ApiContract.Proofs.Document.Places

namespace ApiContract

namespace Text

end Text

namespace Fault

open Graphic

variable {fault : Fault} {count : Nat} {lines : List (List Char)}

/-- A line as the window shows it: its number, counted from one, whether it has the mark, and its
text. -/
structure Row where
  number : Nat
  marked : Bool
  text : List Char

def Row.shown (width : Nat) (row : Row) : String :=
  brightBlue.apply (padLeft width (toString row.number)) ++ " " ++ bar ++ " "
    ++ (if row.marked then brightRed.apply ">" else " ") ++ " " ++ String.ofList row.text ++ "\n"

def rows (fault : Fault) (lines : List (List Char)) : List Row :=
  (fault.window lines.length).filterMap fun i =>
    lines[i]?.map fun line => ⟨i + 1, fault.isMarked i, line⟩

def margin (width : Nat) : String := padLeft width "" ++ " " ++ bar

def above (file : String) (lines : List (List Char)) (fault : Fault) : String :=
  fault.concise file ++ "\n\n" ++ margin (fault.gutter lines.length) ++ "\n"
    ++ fault.windowText lines ++ margin (fault.gutter lines.length)

end Fault

end ApiContract
