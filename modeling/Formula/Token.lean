import Formula.Kind
import Formula.Span
import Formula.Value.Display

/-!
Tokens: a kind, what the token carries besides, and the place it came from.
-/
namespace Formula

/-- Numbers and literals carry a value, identifiers and calls carry a name. -/
inductive Payload
  | none
  | value (v : Value)
  | name (s : String)

structure Token where
  kind : Kind
  payload : Payload
  span : Span

namespace Token

def bare (kind : Kind) (span : Span) : Token := ⟨kind, .none, span⟩

/-- The value of a token, null if it carries none. -/
def value (t : Token) : Value :=
  match t.payload with
  | .value v => v
  | _ => .null

/-- The name of a token, empty if it carries none. -/
def name (t : Token) : String :=
  match t.payload with
  | .name s => s
  | _ => ""

/-- Implied tokens stand where the text has nothing. -/
def isImplicit (t : Token) : Bool := t.span.isEmpty

/-- A token as it stands in messages. -/
def display (t : Token) : String :=
  match t.payload with
  | .value (.text s) => Text.quoted s
  | .value v => v.display
  | .name s => s
  | .none => t.kind.symbol

end Token
end Formula
