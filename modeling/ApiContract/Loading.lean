import ApiContract.Rendering.Terminal

namespace ApiContract

inductive File
  | content (bytes : ByteArray)
  | directory
  | missing

inductive LoadingError
  | notFound
  | isDirectory
  | invalidData
  deriving DecidableEq

namespace LoadingError

def problem : LoadingError → String
  | notFound => "File not found"
  | isDirectory | invalidData => "Failed reading"

def details : LoadingError → String
  | notFound => ""
  | isDirectory => "is a directory"
  | invalidData => "invalid data"

def message (error : LoadingError) : String := error.problem ++ ": " ++ error.details

def concise (file : String) (error : LoadingError) : String :=
  Graphic.brightRed.apply "error" ++ ": " ++ file ++ ": " ++ Graphic.bold.apply error.problem

end LoadingError

/-- A file holds text if its bytes are the UTF-8 form of some. -/
def File.text : File → Except LoadingError String
  | content bytes =>
    match String.fromUTF8? bytes with
    | some text => .ok text
    | none => .error .invalidData
  | directory => .error .isDirectory
  | missing => .error .notFound

end ApiContract
