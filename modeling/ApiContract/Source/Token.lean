import ApiContract.Source.Line
import ApiContract.Text.Blank

namespace ApiContract

/-- Headings, and blocks of indented lines. All other lines are prose: they end a block and mean
nothing. -/
inductive Token
  | heading (level : Nat) (text : List Char) (span : Span)
  | block (first : Line) (more : List Line)
  deriving DecidableEq

namespace Token

def span : Token → Span
  | heading _ _ span => span
  | block first more => Line.spanOf first more

/-- Put an indented line in front: it belongs to the block that starts on the next line. -/
def indent (line : Line) : List Token → List Token
  | block first more :: tokens =>
    if first.number = line.number + 1 then block line (first :: more) :: tokens
    else block line [] :: block first more :: tokens
  | tokens => block line [] :: tokens

def ofLine (line : Line) (tokens : List Token) : List Token :=
  match line.text with
  | '#' :: _ =>
    let level := (line.text.takeWhile (· == '#')).length
    heading level (Text.trim (line.text.drop level)) line.span :: tokens
  | '\t' :: text => indent ⟨line.number, text⟩ tokens
  | _ => tokens

def ofLines (lines : List Line) : List Token := lines.foldr ofLine []

def ofChars (text : List Char) : List Token := ofLines (Line.numbered 0 (Text.lines text))

end Token

end ApiContract
