import ApiContract.Document.Layout
import ApiContract.Document.Reading
import ApiContract.Fault.Window
import ApiContract.Loading

namespace ApiContract.CommandLine

structure Output where
  code : Nat
  stdout : String
  stderr : String

namespace Output

def ok (text : String) : Output := ⟨0, text, ""⟩

def failed (text : String) : Output := ⟨1, "", text⟩

def usage (text : String) : Output := ⟨2, "", "error: " ++ text ++ "\n"⟩

/-- One output behind the other; the worse code stays. -/
def append (a b : Output) : Output := ⟨max a.code b.code, a.stdout ++ b.stdout, a.stderr ++ b.stderr⟩

end Output

def version : String := "v0.3.0"

def versionText (command : String) : String := command ++ " " ++ version ++ "\n"

def help : String := "usage: apitest [COMMAND] ...\nTry '--help' for more information.\n"

structure Arguments where
  flag : Bool
  names : List String

/-- Flags are told from names by a dash, up to a pair of dashes by itself. -/
def parse (flags : List String) : List String → Except String Arguments
  | [] => .ok ⟨false, []⟩
  | "--" :: names => .ok ⟨false, names⟩
  | arg :: args => do
    let rest ← parse flags args
    if flags.contains arg then
      if rest.flag then .error ("the argument '" ++ arg ++ "' cannot be used multiple times")
      else .ok { rest with flag := true }
    else if arg.startsWith "-" && arg != "-" then .error ("unexpected argument '" ++ arg ++ "' found")
    else .ok { rest with names := arg :: rest.names }

def okLine (name : String) (document : Document) : String :=
  let count := document.cases.length
  Graphic.brightGreen.apply "ok" ++ ": " ++ name ++ " (" ++ toString count ++ " case"
    ++ (if count = 1 then "" else "s") ++ ")\n"

def checkFile (concise : Bool) (name : String) (file : File) : Output :=
  match file.text with
  | .error error => .failed (error.concise name ++ "\n")
  | .ok text =>
    match Document.ofString text with
    | .ok document => .ok (okLine name document)
    | .error fault =>
      if concise then .failed (fault.concise name ++ "\n")
      else .failed (fault.full Renderer.terminal name text.toList ++ "\n\n")

def check (files : String → File) (arguments : Arguments) : Output :=
  (arguments.names.map fun name => checkFile arguments.flag name (files name)).foldl
    Output.append (.ok "")

def format (files : String → File) (colour : Bool) (name : String) : Output :=
  match (files name).text with
  | .error error => .failed (error.concise name ++ "\n")
  | .ok text =>
    match Document.ofString text with
    | .ok document => .ok (document.render (if colour then Renderer.terminal else Renderer.plain))
    | .error fault => .failed (fault.full Renderer.terminal name text.toList ++ "\n")

def isVersion (arg : String) : Bool := arg == "--version" || arg == "-V"

def required : String := "the following required arguments were not provided: <filename>"

def runCheck (files : String → File) (args : List String) : Output :=
  if args.any isVersion then .ok (versionText "apitest-check")
  else match parse ["-q", "--concise"] args with
    | .error text => .usage text
    | .ok ⟨_, []⟩ => .usage required
    | .ok arguments => check files arguments

/-- Colours are on when they are asked for, or when the output is a terminal. -/
def runFormat (files : String → File) (terminal : Bool) (args : List String) : Output :=
  if args.any isVersion then .ok (versionText "apitest-format")
  else match parse ["-R", "--raw-control-chars"] args with
    | .error text => .usage text
    | .ok ⟨raw, [name]⟩ => format files (raw || terminal) name
    | .ok ⟨_, []⟩ => .usage required
    | .ok ⟨_, _ :: name :: _⟩ => .usage ("unexpected argument '" ++ name ++ "' found")

def run (files : String → File) (terminal : Bool) : List String → Output
  | [] => .ok help
  | "check" :: args => runCheck files args
  | "format" :: args => runFormat files terminal args
  | arg :: _ =>
    if isVersion arg then .ok (versionText "apitest")
    else if arg.startsWith "-" then .usage ("unexpected argument '" ++ arg ++ "' found")
    else .usage ("unrecognized subcommand '" ++ arg ++ "'")

end ApiContract.CommandLine
