import ApiContract.Rendering.Fragment
import ApiContract.Source.Fault

namespace ApiContract.Fault

def problem : Fault → String
  | expectedHeader _ => "Expected a header"
  | missingSetup _ => "Missing setup section"
  | missingCases _ => "Expected at least one test case"
  | expected _ what => "Expected " ++ what
  | expectedBlock _ => "Expected a tab indented block"
  | unexpectedBlock _ => "Unexpected block"
  | clearedTwice _ _ => "Collection cleared twice"
  | clearedAfterInsertion _ _ => "Collection cleared after insertion"
  | unknownCollection _ collection => "Unknown collection " ++ collection
  | expectedTab _ => "Expected a tab after *"
  | duplicateKey _ _ key => "Duplicate key \"" ++ key ++ "\""
  | invalidPath _ path => "Invalid path \"" ++ path ++ "\""
  | trailingText _ text => "Unexpected \"" ++ text ++ "\""
  | emptyValue _ => "Expected a value"
  | invalidSyntax _ => "Invalid syntax"

def sample (renderer : Renderer) (lines : List (List Fragment)) : String :=
  "\n".intercalate (lines.map fun line => "    " ++ renderer.render line)

def titleSample : List (List Fragment) := [[⟨.header, "# "⟩, ⟨.title, "user/login"⟩]]

def caseSample : List (List Fragment) :=
  [[⟨.header, "## "⟩, ⟨.caption, "Success"⟩],
    [⟨.header, "### "⟩, ⟨.keyword, "Post"⟩],
    [⟨.indent, "\t"⟩, ⟨.key, "name"⟩, ⟨.operator, ":"⟩, Fragment.blank, ⟨.string, "\"John\""⟩],
    [⟨.header, "### "⟩, ⟨.keyword, "Out"⟩],
    [⟨.indent, "\t"⟩, ⟨.key, "token"⟩, ⟨.operator, ":"⟩, Fragment.blank, ⟨.expression, "String"⟩]]

def clearSample (collection : String) : List (List Fragment) :=
  [[⟨.header, "### "⟩, ⟨.keyword, "Clear"⟩, Fragment.blank, ⟨.collection, collection⟩]]

def mixinSample : List (List Fragment) :=
  [[⟨.binder, "user"⟩, Fragment.blank, ⟨.keyword, "without"⟩, Fragment.blank, ⟨.key, "name"⟩,
    ⟨.operator, ";"⟩, Fragment.blank, ⟨.keyword, "with"⟩, Fragment.blank, ⟨.key, "age"⟩,
    ⟨.operator, ":"⟩, Fragment.blank, ⟨.numeric, "36"⟩]]

def details (renderer : Renderer) : Fault → String
  | expectedHeader _ =>
    "A test document starts with a level one header naming the endpoint being\nexercised, for example:\n\n"
      ++ sample renderer titleSample ++ "\n\nAppend " ++ renderer .keyword "(skip)"
      ++ " to the title to skip every case in the document."
  | missingSetup _ =>
    "Test cases must follow a " ++ renderer .caption "## Setup"
      ++ " section, even an empty one. Anything between\nthe title and the setup is documentation and is ignored."
  | missingCases _ =>
    "After the setup section, each test case is introduced by a level two\nheader naming it, followed by what to post and what to expect back:\n\n"
      ++ sample renderer caseSample
  | expected _ what => "The parser was looking for " ++ what ++ " but found something else."
  | expectedBlock _ =>
    "This section describes a value, which must be written on the lines\nimmediately following the header, each indented by a tab."
  | unexpectedBlock _ =>
    "Only sections describing a value are followed by a tab indented block.\n"
      ++ renderer .keyword "Clear" ++ " takes none."
  | clearedTwice _ _ =>
    "There is no need to clear the same collection twice; remove the second one."
  | clearedAfterInsertion _ _ =>
    "Clearing a collection after inserting into it would throw the inserted\ndocuments away. Inserting into a collection clears it first anyway, so the\nexplicit clear can go before the insertion or be removed."
  | unknownCollection _ collection =>
    "Finds may only look in collections the setup clears or inserts into, so\nthat the documents found are known to come from this test. Add\n\n"
      ++ sample renderer (clearSample collection) ++ "\n\nto the setup section."
  | expectedTab _ =>
    "Array elements are written as " ++ renderer .bullet "*"
      ++ " followed by a tab and then the value."
  | duplicateKey _ _ _ => "Each key may appear only once in an object."
  | invalidPath _ _ =>
    "Paths are dot separated identifiers and array indices, such as\n" ++ renderer .key "items.0.name"
      ++ " or " ++ renderer .key "user.password" ++ "."
  | trailingText _ _ =>
    "The list of paths to remove can only be followed by " ++ renderer .keyword "; with"
      ++ " and the values to\nadd, for example:\n\n" ++ sample renderer mixinSample
  | emptyValue _ => "A key or array element was given nothing to hold."
  | invalidSyntax _ =>
    "A block is either an array of \"*\" elements, an object of \"key:\" entries, a\nmixin such as \"user with name: 1\", or a single line expression."

end ApiContract.Fault
