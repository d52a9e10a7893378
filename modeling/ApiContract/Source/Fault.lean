import ApiContract.Source.Line

namespace ApiContract

inductive Fault
  | expectedHeader (place : Span)
  | missingSetup (place : Span)
  | missingCases (place : Span)
  | expected (place : Span) (what : String)
  | expectedBlock (place : Span)
  | unexpectedBlock (place : Span)
  | clearedTwice (earlier later : Span)
  | clearedAfterInsertion (earlier later : Span)
  | unknownCollection (place : Span) (collection : String)
  | expectedTab (place : Span)
  | duplicateKey (earlier later : Span) (key : String)
  | invalidPath (place : Span) (path : String)
  | trailingText (place : Span) (text : String)
  | emptyValue (place : Span)
  | invalidSyntax (place : Span)
  deriving DecidableEq

namespace Fault

def message : Fault → String
  | expectedHeader _ => "Expected a header"
  | missingSetup _ => "Test cases must follow a \"## Setup\" header"
  | missingCases _ => "Expected at least one test case"
  | expected _ what => "Expected " ++ what
  | expectedBlock _ => "Expected a tab indented block"
  | unexpectedBlock _ => "Unexpected block"
  | clearedTwice _ _ => "No need to clear the same collection twice"
  | clearedAfterInsertion _ _ => "Clearing the collection after insertion is not a good idea"
  | unknownCollection _ collection =>
    "You can't do a find in " ++ collection ++ ", a collection that wasn't cleared in the setup"
  | expectedTab _ => "Expected a tab after *"
  | duplicateKey _ _ key => "Duplicate key \"" ++ key ++ "\""
  | invalidPath _ path => "Invalid path \"" ++ path ++ "\""
  | trailingText _ text => "Unexpected \"" ++ text ++ "\" after the mixin"
  | emptyValue _ => "Expected a value"
  | invalidSyntax _ => "Invalid syntax"

/-- The lines to show, in the order in which the document has them at fault. -/
def spans : Fault → List Span
  | clearedTwice earlier later | clearedAfterInsertion earlier later
  | duplicateKey earlier later _ => [earlier, later]
  | expectedHeader span | missingSetup span | missingCases span | expected span _
  | expectedBlock span | unexpectedBlock span | unknownCollection span _ | expectedTab span
  | invalidPath span _ | trailingText span _ | emptyValue span | invalidSyntax span => [span]

/-- The one place to mend. Of two occurrences it is the later one. -/
def span : Fault → Span
  | clearedTwice _ later | clearedAfterInsertion _ later | duplicateKey _ later _ => later
  | expectedHeader span | missingSetup span | missingCases span | expected span _
  | expectedBlock span | unexpectedBlock span | unknownCollection span _ | expectedTab span
  | invalidPath span _ | trailingText span _ | emptyValue span | invalidSyntax span => span

end Fault

end ApiContract
