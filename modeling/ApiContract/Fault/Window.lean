import ApiContract.Fault.Explanation
import ApiContract.Rendering.Terminal
import ApiContract.Text.Blank

namespace ApiContract.Fault

open Graphic

/-- So many lines are shown on either side of a fault. -/
def context : Nat := 3

def extent (fault : Fault) : Span := fault.spans.foldl Span.join fault.span

def padLeft (width : Nat) (s : String) : String :=
  String.ofList (List.replicate (width - s.length) ' ') ++ s

def bar : String := brightBlue.apply "|"

def window (fault : Fault) (count : Nat) : List Nat :=
  let extent := fault.extent
  let start := extent.start - context
  List.range' start (min (extent.stop + context) count - start)

def isMarked (fault : Fault) (number : Nat) : Bool := fault.spans.any (·.covers number)

def gutter (fault : Fault) (count : Nat) : Nat :=
  max 3 (toString (min (fault.extent.stop + context) count)).length

def windowLine (fault : Fault) (width number : Nat) (line : List Char) : String :=
  let marker := if fault.isMarked number then brightRed.apply ">" else " "
  brightBlue.apply (padLeft width (toString (number + 1))) ++ " " ++ bar ++ " " ++ marker ++ " "
    ++ String.ofList line ++ "\n"

def windowText (fault : Fault) (lines : List (List Char)) : String :=
  let width := fault.gutter lines.length
  String.join ((fault.window lines.length).filterMap fun i =>
    lines[i]?.map fun line => windowLine fault width i line)

def concise (file : String) (fault : Fault) : String :=
  brightRed.apply "error" ++ ": " ++ file ++ ":" ++ toString (fault.span.start + 1) ++ " "
    ++ bold.apply fault.problem

/-- The fault with the source around it and its explanation. -/
def full (renderer : Renderer) (file : String) (source : List Char) (fault : Fault) : String :=
  let lines := Text.lines source
  let margin := padLeft (fault.gutter lines.length) "" ++ " " ++ bar ++ "\n"
  let text := fault.concise file ++ "\n\n" ++ margin ++ fault.windowText lines ++ margin ++ "\n"
    ++ fault.details renderer
  String.ofList (Text.trimPlain text.toList)

end ApiContract.Fault
