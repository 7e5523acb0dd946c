import Formula.Fault

/-!
What the command line says about a fault. A fault with a place is shown at its place in the
text, any other fault is a line or two.
-/
namespace Formula.CommandLine

/-- A complaint: plain text, or a headline with the place that it points at, by line and column,
the piece of text there, and what would help. -/
inductive Report
  | plain (text : String)
  | marked (headline : String) (line column : Nat) (fragment : String) (help : Option String)

/-- Characters that end a line in a terminal's view of a text. -/
def isLineEnd (c : Char) : Bool :=
  c == '\n' || c == '\r' || c == '\x0b' || c == '\x0c' || c == '\u0085' || c == '\u2028' ||
    c == '\u2029'

/-- Line and column behind some characters, both from zero; the text goes on with `rest`. A
carriage return and the line feed behind it are one end of line, and the end of the text is on
the last line. -/
def locate (line column : Nat) : List Char → List Char → Nat × Nat
  | [], _ => (line, column)
  | c :: cs, rest =>
    let behind := cs ++ rest.take 1
    if !isLineEnd c || (c == '\r' && behind.head? == some '\n') || behind.isEmpty then
      locate line (column + 1) cs rest
    else locate (line + 1) 0 cs rest

/-- The characters of a text before a byte offset, and those from there on. -/
def splitAtOffset : Nat → List Char → List Char × List Char
  | _, [] => ([], [])
  | 0, cs => ([], cs)
  | n, c :: cs =>
    let (before, behind) := splitAtOffset (n - c.utf8Size) cs
    (c :: before, behind)

def headline (kind description : String) (d : Details) (s : Span) : String :=
  "Error: " ++ kind ++ " (" ++ description ++ "): " ++ d.message ++ " (at " ++ s.text ++ ")"

/-- The report on a fault with these details. -/
def reportDetails (source : String) (e : Fault) (kind description : String) (d : Details) :
    Report :=
  match d.span with
  | none => .plain e.text
  | some s =>
    let (before, behind) := splitAtOffset s.start source.toList
    let (line, column) := locate 0 0 before behind
    .marked (headline kind description d s) (line + 1) (column + 1) (d.fragment.getD "")
      d.suggestion

def Report.ofFault (source : String) (e : Fault) : Report :=
  match e with
  | .syntaxFault kind d => reportDetails source e "Syntax error" kind.description d
  | .runtimeFault kind d => reportDetails source e "Runtime error" kind.description d
  | .limitExceeded name limit actual suggestion =>
    .plain ("Resource limit exceeded: " ++ name ++ "\n  Limit: " ++ limit ++ "\n  Actual: " ++
      actual ++ "\n  " ++ suggestion)

/-- A report as text. -/
def Report.text : Report → String
  | .plain text => text ++ "\n"
  | .marked headline line column fragment help =>
    headline ++ "\n  --> expression:" ++ toString line ++ ":" ++ toString column ++ "\n" ++
      (if fragment.isEmpty then "" else "   | " ++ fragment ++ "\n") ++
      (match help with | some h => "   = help: " ++ h ++ "\n" | none => "")

end Formula.CommandLine
