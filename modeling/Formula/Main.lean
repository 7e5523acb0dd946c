import Formula.CommandLine.Perform

/-!
The program. All that happens here is reading a file and printing.
-/
namespace Formula.CommandLine

/-- The reason that the system gives, and its number. -/
def reason : IO.Error → String
  | .noFileOrDirectory _ code details => details ++ " (os error " ++ toString code ++ ")"
  | .permissionDenied _ code details => details ++ " (os error " ++ toString code ++ ")"
  | .inappropriateType _ code details => details ++ " (os error " ++ toString code ++ ")"
  | e => toString e

/-- Reads the file that the arguments name, if they name one. -/
def loadFile (args : List String) : IO FileReader := do
  match Command.ofArguments? args with
  | some (.eval ⟨_, _, _, _, some name⟩) =>
    let content ← EIO.toBaseIO (IO.FS.readBinFile name)
    return fun _ => content.mapError reason
  | _ => return fun _ => .error ""

end Formula.CommandLine

def main (args : List String) : IO UInt32 := do
  let outcome := Formula.CommandLine.perform (← Formula.CommandLine.loadFile args) args
  IO.print outcome.output
  match outcome.report with
  | some report => IO.eprint report.text
  | none => pure ()
  return outcome.status.toUInt32
