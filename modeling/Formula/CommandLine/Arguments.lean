/-!
Arguments of the command line. Options begin with a hyphen and may stand before and behind the
other arguments; behind a bare double hyphen nothing is an option. Options of one letter can be
written together.
-/
namespace Formula.CommandLine

/-- What `eval` is told: an expression, constants by name, and options. -/
structure EvalArguments where
  expression : String
  constants : List String
  strict : Bool
  json : Bool
  file : Option String

inductive Command
  | eval (arguments : EvalArguments)
  | tokens (expression : String)
  | version
  | help

/-- Why reading arguments ends early: they are wrong, or a command was found among them. -/
inductive Stop
  | usage
  | found (command : Command)

/-- The arguments read so far; the positional ones are in reverse. -/
structure Draft where
  positional : List String
  strict : Bool
  json : Bool
  file : Option String

namespace Draft

def empty : Draft := ⟨[], false, false, none⟩

/-- Options are given once. -/
def setStrict (d : Draft) : Except Stop Draft :=
  if d.strict then .error .usage else .ok { d with strict := true }

def setJson (d : Draft) : Except Stop Draft :=
  if d.json then .error .usage else .ok { d with json := true }

/-- A file has a name. -/
def setFile (d : Draft) (name : List Char) : Except Stop Draft :=
  if d.file.isSome || name.isEmpty then .error .usage
  else .ok { d with file := some (String.ofList name) }

end Draft

/-- Whether an argument is read as an option. -/
def isOption (arg : List Char) : Bool := arg.head? == some '-' && arg.length ≠ 1

/-- Options in one argument: letters, of which the one that takes a value ends the row. The
result is the draft, and whether the value is still to come. -/
def readLetters (d : Draft) : List Char → Except Stop (Draft × Bool)
  | [] => .ok (d, false)
  | 's' :: rest => do readLetters (← d.setStrict) rest
  | 'j' :: rest => do readLetters (← d.setJson) rest
  | 'h' :: _ => .error (.found .help)
  | ['c'] => .ok (d, true)
  | 'c' :: '=' :: value => return (← d.setFile value, false)
  | 'c' :: value => return (← d.setFile value, false)
  | _ => .error .usage

/-- An option by its name, with the value behind an equals sign if there is one. -/
def readLong (d : Draft) (name : String) (value : Option (List Char)) :
    Except Stop (Draft × Bool) :=
  match name, value with
  | "strict", none => return (← d.setStrict, false)
  | "json", none => return (← d.setJson, false)
  | "help", none => .error (.found .help)
  | "constants", none => .ok (d, true)
  | "constants", some v => return (← d.setFile v, false)
  | _, _ => .error .usage

def readOption (d : Draft) (arg : List Char) : Except Stop (Draft × Bool) :=
  match arg.drop 1 with
  | '-' :: long =>
    let name := long.takeWhile (· != '=')
    let value := match long.dropWhile (· != '=') with
      | [] => none
      | _ :: v => some v
    readLong d (String.ofList name) value
  | letters => readLetters d letters

/-- Reads arguments in their order. The flag says that the value of an option comes next. -/
def readArguments (d : Draft) (valueNext : Bool) : List String → Except Stop Draft
  | [] => if valueNext then .error .usage else .ok d
  | arg :: rest =>
    if arg == "--" then
      if valueNext then .error .usage
      else .ok { d with positional := rest.reverse ++ d.positional }
    else if isOption arg.toList then
      if valueNext then .error .usage
      else do
        let (d, valueNext) ← readOption d arg.toList
        readArguments d valueNext rest
    else if valueNext then do readArguments (← d.setFile arg.toList) false rest
    else readArguments { d with positional := arg :: d.positional } false rest

def readEval (args : List String) : Except Stop Command := do
  let d ← readArguments .empty false args
  match d.positional.reverse with
  | expression :: constants => return .eval ⟨expression, constants, d.strict, d.json, d.file⟩
  | [] => .error .usage

/-- `tokens` takes an expression, and knows no option but the one for help. -/
def readTokens : Bool → Option String → List String → Except Stop Command
  | _, some expression, [] => .ok (.tokens expression)
  | _, none, [] => .error .usage
  | plain, expression, arg :: rest =>
    if !plain && arg == "--" then readTokens true expression rest
    else if !plain && isOption arg.toList then
      if arg == "--help" || arg.startsWith "-h" then .error (.found .help) else .error .usage
    else
      match expression with
      | none => readTokens plain (some arg) rest
      | some _ => .error .usage

def read (args : List String) : Except Stop Command :=
  match args with
  | "eval" :: rest => readEval rest
  | "tokens" :: rest => readTokens false none rest
  | ["help"] | ["help", "eval"] | ["help", "tokens"] | ["help", "help"] => .ok .help
  | arg :: _ =>
    if arg == "--version" || arg.startsWith "-V" then .ok .version
    else if arg == "--help" || arg.startsWith "-h" then .ok .help
    else .error .usage
  | [] => .error .usage

/-- The command that arguments ask for; nothing if they are wrong. -/
def Command.ofArguments? (args : List String) : Option Command :=
  match read args with
  | .ok command => some command
  | .error (.found command) => some command
  | .error .usage => none

end Formula.CommandLine
