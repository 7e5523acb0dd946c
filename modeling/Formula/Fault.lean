import Formula.Kind
import Formula.Span

/-!
What can go wrong with an expression: its text cannot be read or has no structure, its
evaluation fails, or it costs more than it may. The first two say what happened and, when
known, where, at which piece of the text, and what would help.
-/
namespace Formula

/-- Faults of reading and of structure. -/
inductive SyntaxFault
  | unexpectedInput | emptyMatch | unexpectedToken | unexpectedEnd
  | unmatchedClose | unclosedBracket | unbalancedExpression | emptyExpression
  deriving DecidableEq

namespace SyntaxFault

def all : List SyntaxFault :=
  [unexpectedInput, emptyMatch, unexpectedToken, unexpectedEnd, unmatchedClose, unclosedBracket,
   unbalancedExpression, emptyExpression]

def description : SyntaxFault → String
  | unexpectedInput => "unexpected input"
  | emptyMatch => "empty match"
  | unexpectedToken => "unexpected token"
  | unexpectedEnd => "unexpected end of expression"
  | unmatchedClose => "unmatched closing bracket"
  | unclosedBracket => "unclosed bracket"
  | unbalancedExpression => "unbalanced expression"
  | emptyExpression => "empty expression"

end SyntaxFault

/-- Faults of evaluating a well-formed expression. -/
inductive RuntimeFault
  | undefinedFunction (name : String)
  | undefinedConstant (name : String)
  | divisionByZero
  | modulusByZero
  | undefinedOperatorHandler (operator : Kind)
  | unsupportedOperator (operator : Kind)
  | invalidOperand
  | argumentCount (function expected : String) (actual : Nat)
  | functionFailed (name : String)
  deriving DecidableEq

namespace RuntimeFault

def description : RuntimeFault → String
  | undefinedFunction _ => "undefined function"
  | undefinedConstant _ => "undefined constant"
  | divisionByZero => "division by zero"
  | modulusByZero => "modulus by zero"
  | undefinedOperatorHandler _ => "undefined operator handler"
  | unsupportedOperator _ => "unsupported operator"
  | invalidOperand => "invalid operand"
  | argumentCount .. => "wrong argument count"
  | functionFailed _ => "function failed"

end RuntimeFault

/-- What is known about a fault. -/
structure Details where
  message : String
  span : Option Span
  fragment : Option String
  suggestion : Option String
  deriving DecidableEq

inductive Fault
  | syntaxFault (kind : SyntaxFault) (details : Details)
  | runtimeFault (kind : RuntimeFault) (details : Details)
  | limitExceeded (name limit actual suggestion : String)
  deriving DecidableEq

namespace Fault

def ofSyntax (kind : SyntaxFault) (message : String) : Fault :=
  .syntaxFault kind ⟨message, none, none, none⟩

def ofRuntime (kind : RuntimeFault) (message : String) : Fault :=
  .runtimeFault kind ⟨message, none, none, none⟩

/-- The failure that a function reports about itself. -/
def functionFailed (function message : String) : Fault :=
  ofRuntime (.functionFailed function) (function ++ ": " ++ message)

/-- A changed account of what is known; an exceeded limit has none. -/
def mapDetails (f : Details → Details) : Fault → Fault
  | .syntaxFault kind d => .syntaxFault kind (f d)
  | .runtimeFault kind d => .runtimeFault kind (f d)
  | .limitExceeded name limit actual suggestion => .limitExceeded name limit actual suggestion

def withSpan (e : Fault) (s : Span) : Fault := e.mapDetails fun d => { d with span := some s }

/-- Places a fault, unless it has a place. -/
def orSpan (e : Fault) (s : Span) : Fault :=
  e.mapDetails fun d => { d with span := d.span <|> some s }

def withFragment (e : Fault) (text : String) : Fault :=
  e.mapDetails fun d => { d with fragment := some text }

def withSuggestion (e : Fault) (text : String) : Fault :=
  e.mapDetails fun d => { d with suggestion := some text }

def details? : Fault → Option Details
  | .syntaxFault _ d => some d
  | .runtimeFault _ d => some d
  | .limitExceeded .. => none

def span? (e : Fault) : Option Span := e.details?.bind Details.span

def syntaxKind? : Fault → Option SyntaxFault
  | .syntaxFault kind _ => some kind
  | _ => none

def runtimeKind? : Fault → Option RuntimeFault
  | .runtimeFault kind _ => some kind
  | _ => none

def isSyntax (e : Fault) : Bool := e.syntaxKind?.isSome

def isRuntime (e : Fault) : Bool := e.runtimeKind?.isSome

/-- The message with everything that is known behind it. -/
def detailsText (d : Details) : String :=
  d.message ++
    (match d.fragment with | some text => " near `" ++ text ++ "`" | none => "") ++
    (match d.suggestion with | some text => " (suggestion: " ++ text ++ ")" | none => "") ++
    (match d.span with | some s => " at " ++ s.text | none => "")

def text : Fault → String
  | .syntaxFault _ d => "Syntax error: " ++ detailsText d
  | .runtimeFault _ d => "Runtime error: " ++ detailsText d
  | .limitExceeded name limit actual suggestion =>
    "Resource limit exceeded: " ++ name ++ " (limit: " ++ limit ++ ", actual: " ++ actual ++
      "). " ++ suggestion

theorem span?_withSpan {e : Fault} (s : Span) (h : e.details?.isSome) :
    (e.withSpan s).span? = some s := by
  cases e <;> simp_all [withSpan, mapDetails, span?, details?]

/-- A fault that has a place keeps it. -/
theorem orSpan_eq_self {e : Fault} {s : Span} (t : Span) (h : e.span? = some s) :
    e.orSpan t = e := by
  cases e <;> simp_all [orSpan, mapDetails, span?, details?] <;> rw [← h]

/-- A fault that is placed keeps its place, and any other gets the one that it is given. -/
theorem span?_orSpan {d : Fault} {s : Span} (h : (d.orSpan s).details?.isSome = true) :
    (d.orSpan s).span? = some (d.span?.getD s) := by
  cases hd : d.span? with
  | none =>
    cases d with
    | syntaxFault k details | runtimeFault k details =>
      have hspan : details.span = none := hd
      simp [orSpan, mapDetails, span?, details?, hspan]
    | limitExceeded => cases h
  | some s' =>
    rw [orSpan_eq_self s hd, hd]
    rfl

end Fault
end Formula
