import Formula.CommandLine.Arguments
import Formula.CommandLine.Report
import Formula.Json.Conversion
import Formula.Run
import Formula.Text.BoxTable

/-!
The commands: evaluating an expression with constants from arguments and from a file, and
showing the tokens of an expression.
-/
namespace Formula.CommandLine

/-- What a command leaves behind: its status, what it prints, and what it complains about. -/
structure Outcome where
  status : Nat
  output : String
  report : Option Report

def success (output : String) : Outcome := ⟨0, output, none⟩

def failure (report : Report) : Outcome := ⟨1, "", some report⟩

/-- The content of a file, or the reason why it cannot be read. -/
abbrev FileReader : Type := String → Except String ByteArray

/-- Splits a text at its first equals sign. -/
def splitAssignment? (arg : String) : Option (String × String) :=
  match arg.toList.takeWhile (· != '='), arg.toList.dropWhile (· != '=') with
  | name, _ :: value => some (String.ofList name, String.ofList value)
  | _, [] => none

/-- A constant given as name and value. -/
def readConstant (arg : String) : Except Report (String × Value) :=
  match splitAssignment? arg with
  | none => .error (.plain ("Error: Invalid constant '" ++ arg ++ "', expected name=value"))
  | some (name, value) =>
    if name.isEmpty then
      .error (.plain ("Error: Invalid constant '" ++ arg ++ "', the name is empty"))
    else .ok (name, .ofArgument value)

/-- The constants of a file. -/
def readFile (files : FileReader) (name : String) : Except Report (List (String × Value)) :=
  match files name with
  | .error reason =>
    .error (.plain ("Error: Failed to read constants file " ++ name ++ ": " ++ reason))
  | .ok bytes => (constantsOfJson bytes).mapError (Report.ofFault "")

/-- Constants from the file come first, and those among the arguments replace them. -/
def environment (files : FileReader) (a : EvalArguments) : Except Report Environment := do
  let fromFile ← match a.file with
    | some name => readFile files name
    | none => pure []
  let fromArguments ← a.constants.mapM readConstant
  return ((Environment.complete.setStrict a.strict).defineConstants fromFile).defineConstants
    fromArguments

def performEval (files : FileReader) (a : EvalArguments) : Outcome :=
  let result : Except Report Value := do
    let env ← environment files a
    (env.evaluate a.expression).mapError (.ofFault a.expression)
  match result with
  | .ok v => success ((if a.json then v.toJson.pretty else v.display) ++ "\n")
  | .error report => failure report

def tokenColumns : List Text.Column :=
  [⟨"#", true⟩, ⟨"Kind", false⟩, ⟨"Token", false⟩, ⟨"Span", false⟩]

/-- Where a token is in the text. -/
def spanCell (t : Token) : String :=
  if t.isImplicit then t.span.text ++ " (implicit)"
  else t.span.text ++ " [" ++ toString t.span.start ++ ".." ++ toString t.span.stop ++ ")"

def tokenTable (ts : List Token) : String :=
  Text.BoxTable.render tokenColumns
    (ts.zipIdx.map fun (t, i) => [toString i, t.kind.name, t.display, spanCell t])

def performTokens (expression : String) : Outcome :=
  match tokenize expression with
  | .ok stream => success (tokenTable stream.tokens ++ "\n")
  | .error e => failure (.ofFault expression e)

def usage : String :=
  "Usage: shunt eval [OPTIONS] EXPRESSION [NAME=VALUE]...\n" ++
  "       shunt tokens EXPRESSION\n\n" ++
  "Options:\n" ++
  "  -s, --strict           Fail on names that are not bound to a constant\n" ++
  "  -c, --constants FILE   JSON file with an object of constants\n" ++
  "  -j, --json             Print the result as JSON\n" ++
  "  -h, --help             Print help\n" ++
  "  -V, --version          Print version\n"

def perform (files : FileReader) (args : List String) : Outcome :=
  match Command.ofArguments? args with
  | some (.eval a) => performEval files a
  | some (.tokens expression) => performTokens expression
  | some .version => success "shunt 0.3.0\n"
  | some .help => success usage
  | none => ⟨2, "", some (.plain usage)⟩

end Formula.CommandLine
