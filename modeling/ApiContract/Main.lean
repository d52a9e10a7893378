import ApiContract.CommandLine

open ApiContract

def findFile (name : String) : IO File := do
  try
    return .content (← IO.FS.readBinFile name)
  catch
    | .noFileOrDirectory .. => return .missing
    | _ => return .directory

def main (args : List String) : IO UInt32 := do
  let files ← args.mapM fun name => return (name, ← findFile name)
  let terminal ← (← IO.getStdout).isTty
  let output := CommandLine.run (fun name => (files.lookup name).getD .missing) terminal args
  IO.print output.stdout
  IO.eprint output.stderr
  return output.code.toUInt32
