import ApiContract.Json.Reading
import ApiContract.Loading

namespace ApiContract

structure Options where
  /-- stands before every endpoint -/
  baseUrl : String
  /-- whether keys and items that no template mentions are refused -/
  strict : Bool
  /-- keys that a stored document may have at its root beyond those of the template -/
  ignoredFindKeys : List String
  /-- by collection, members for every inserted document that does not have them -/
  defaultDocuments : Fields Json

namespace Options

def default : Options := ⟨"http://localhost:8000/", true, ["_id", "__v"], []⟩

/-- The full address of an endpoint, with one slash where the two meet. -/
def url (options : Options) (endpoint : String) : String :=
  let isSlash (c : Char) := c == '/'
  let root := (options.baseUrl.toList.reverse.dropWhile isSlash).reverse
  String.ofList (root ++ '/' :: endpoint.toList.dropWhile isSlash)

inductive Field
  | baseUrl | strict | ignoredFindKeys | defaultDocuments
  deriving DecidableEq

def Field.ofName? : String → Option Field
  | "base_url" => some .baseUrl
  | "strict" => some .strict
  | "ignored_find_keys" => some .ignoredFindKeys
  | "default_documents" => some .defaultDocuments
  | _ => none

def fields : List Field := [.baseUrl, .strict, .ignoredFindKeys, .defaultDocuments]

def texts? : List Json → Option (List String)
  | [] => some []
  | .string s :: items => (texts? items).map (s :: ·)
  | _ => none

/-- The options with one of them set, if the value is of its type. -/
def set? (options : Options) : Field → Json → Option Options
  | .baseUrl, .string s => some { options with baseUrl := s }
  | .strict, .bool b => some { options with strict := b }
  | .ignoredFindKeys, .array items =>
    (texts? items).map fun keys => { options with ignoredFindKeys := keys }
  | .defaultDocuments, .object documents => some { options with defaultDocuments := documents }
  | _, _ => none

def setAll? : List (Field × Json) → Options → Option Options
  | [], options => some options
  | (field, json) :: members, options => (options.set? field json).bind (setAll? members)

/-- The values of options stand inside of one array or object already. -/
def care : Json.Care := .full (Json.maxLevels - 1)

/-- At least one member, and more up to the closing brace. No option comes twice, and what is none
is skimmed. -/
def memberTail? (seen : List Field) (s : List Char) :
    Option (Reading Char (List (Field × Json)) s.length) :=
  match Json.key? false s with
  | none => none
  | some key =>
    let field := Field.ofName? key.value
    if field.any seen.contains then none
    else match Json.value? (if field.isSome then care else .skim) key.rest with
      | none => none
      | some item =>
        let found := field.toList.map fun field => (field, item.value)
        match Json.mark? ',' item.rest with
        | some comma =>
          (memberTail? (field.toList ++ seen) comma.rest).map fun more =>
            key.before (item.before (comma.before (more.map (found ++ ·))))
        | none =>
          (Json.mark? '\x7d' item.rest).map fun close =>
            key.before (item.before (close.map fun _ => found))
termination_by s.length
decreasing_by exact Nat.lt_trans comma.within (Nat.lt_trans item.within key.within)

/-- All options in an object, or the values of the first ones in an array. -/
def members? (s : List Char) : Option (List (Field × Json) × List Char) :=
  match Json.front? s with
  | none => none
  | some start =>
    match start.value with
    | '\x7b' =>
      match Json.mark? '\x7d' start.rest with
      | some close => some ([], close.rest)
      | none => (memberTail? [] start.rest).map Reading.pair
    | '[' =>
      match Json.items? care start.rest with
      | some r =>
        if r.value.length ≤ fields.length then some (fields.zip r.value, r.rest) else none
      | none => none
    | _ => none

def ofChars? (s : List Char) : Option Options :=
  match members? s with
  | some (members, rest) => if rest.all Json.isGap then setAll? members default else none
  | none => none

inductive Problem
  | unreadable (error : LoadingError)
  | malformed

def load (file : File) : Except Problem Options :=
  match file.text with
  | .error error => .error (.unreadable error)
  | .ok text =>
    match ofChars? text.toList with
    | some options => .ok options
    | none => .error .malformed

end Options

end ApiContract
