import RegularLanguages.CommandLine.Run

/-! # The command line

Reads the files that the arguments name, runs, and writes what the run leaves
behind. -/
set_option autoImplicit false
namespace RegularLanguages

/-- Why a file could not be read.  The code of a folder is negative if the file
could not even be opened. -/
def FileError.ofError : IO.Error → FileError
  | .inappropriateType _ code _ => if code = 21 ∨ code = 0 - 21 then isFolder else notFolder
  | .userError _ => notText
  | _ => missing

def readText (path : String) : IO (Except FileError String) := do
  try
    return .ok (← IO.FS.readFile path)
  catch e =>
    return .error (.ofError e)

def writeLog (text : String) : IO Unit := do
  let folder := CommandLine.Session.logFolder
  IO.FS.createDirAll folder
  IO.FS.writeFile (folder ++ "/regex_dfa_" ++ toString (← IO.monoMsNow) ++ ".txt") text

end RegularLanguages

open RegularLanguages in
def main (arguments : List String) : IO UInt32 := do
  let files ← (CommandLine.paths arguments).mapM fun path =>
    return (path, ← readText path)
  let report := CommandLine.run arguments fun path => (files.lookup path).getD (.error .missing)
  IO.print report.stdout
  IO.eprint report.journal.shown
  report.journal.file.forM writeLog
  report.failure.forM fun reason => IO.eprintln ("Error: " ++ reason)
  return report.exitCode.toUInt32
