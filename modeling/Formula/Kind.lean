/-!
Kinds of tokens. Each kind is in one of five classes, and an operator has a binding strength.
-/
namespace Formula

inductive Kind
  | number | identifier | literal | functionCall
  | parenOpen | arrayOpen | parenClose | arrayClose
  | comma | pairArrow
  | plus | minus | unaryPlus | unaryMinus | times | div | mod | pow
  | not | concat | isIn
  | greaterEqual | lessEqual | greater | less | equal | notEqual
  | and | or
  deriving DecidableEq

/-- What a kind of token does in an expression. -/
inductive Role
  | operand | opener | closer | separator | operator
  deriving DecidableEq

namespace Kind

/-- All kinds in their order. -/
def all : List Kind :=
  [number, identifier, literal, functionCall, parenOpen, arrayOpen, parenClose, arrayClose,
   comma, pairArrow, plus, minus, unaryPlus, unaryMinus, times, div, mod, pow, not, concat, isIn,
   greaterEqual, lessEqual, greater, less, equal, notEqual, and, or]

def role : Kind → Role
  | number | identifier | literal | functionCall => .operand
  | parenOpen | arrayOpen => .opener
  | parenClose | arrayClose => .closer
  | comma | pairArrow => .separator
  | _ => .operator

def isOperand (k : Kind) : Bool := k.role == .operand
def isOpener (k : Kind) : Bool := k.role == .opener
def isCloser (k : Kind) : Bool := k.role == .closer
def isSeparator (k : Kind) : Bool := k.role == .separator
def isOperator (k : Kind) : Bool := k.role == .operator

/-- The bit that marks a class in the code of a kind. -/
def roleBit : Role → Nat
  | .operand => 0x0100
  | .opener => 0x0200
  | .closer => 0x0400
  | .separator => 0x0800
  | .operator => 0x1000

/-- The code of a kind: the bit of its class, and its number within the class. -/
def code (k : Kind) : Nat :=
  roleBit k.role + (all.filter fun j => j.role == k.role).idxOf k + 1

/-- Prefix operators take one operand, on their right. -/
def isPrefixOperator : Kind → Bool
  | unaryPlus | unaryMinus | not => true
  | _ => false

/-- Binding strength; only operators have one. -/
def precedence? : Kind → Option Nat
  | or | and => some 1
  | equal | notEqual | greater | less | greaterEqual | lessEqual | isIn => some 2
  | concat => some 3
  | plus | minus => some 4
  | times | div | mod => some 5
  | unaryPlus | unaryMinus => some 6
  | pow => some 7
  | not => some 8
  | _ => none

def isRightAssociative (k : Kind) : Bool := k == pow || k.isPrefixOperator

/-- The spelling of a kind, or its description when its tokens are spelled in many ways. -/
def symbol : Kind → String
  | number => "number"
  | identifier => "identifier"
  | literal => "literal"
  | functionCall => "function call"
  | parenOpen => "("
  | arrayOpen => "["
  | parenClose => ")"
  | arrayClose => "]"
  | comma => ","
  | pairArrow => "->"
  | plus | unaryPlus => "+"
  | minus | unaryMinus => "-"
  | times => "*"
  | div => "/"
  | mod => "%"
  | pow => "^"
  | not => "!"
  | concat => "||"
  | isIn => "in"
  | greaterEqual => ">="
  | lessEqual => "<="
  | greater => ">"
  | less => "<"
  | equal => "="
  | notEqual => "<>"
  | and => "&"
  | or => "|"

/-- The name of a kind. -/
def name : Kind → String
  | number => "Number"
  | identifier => "Identifier"
  | literal => "Literal"
  | functionCall => "FunctionCall"
  | parenOpen => "ParenOpen"
  | arrayOpen => "ArrayOpen"
  | parenClose => "ParenClose"
  | arrayClose => "ArrayClose"
  | comma => "Comma"
  | pairArrow => "PairArrow"
  | plus => "Plus"
  | minus => "Minus"
  | unaryPlus => "UnaryPlus"
  | unaryMinus => "UnaryMinus"
  | times => "Times"
  | div => "Div"
  | mod => "Mod"
  | pow => "Pow"
  | not => "Not"
  | concat => "Concat"
  | isIn => "In"
  | greaterEqual => "GreaterEqual"
  | lessEqual => "LessEqual"
  | greater => "Greater"
  | less => "Less"
  | equal => "Equal"
  | notEqual => "NotEqual"
  | and => "And"
  | or => "Or"

def ofName? (s : String) : Option Kind := all.find? fun k => k.name == s

theorem mem_all (k : Kind) : k ∈ all := by cases k <;> decide

theorem nodup_all : all.Nodup := by decide

/-- Exactly the operators have a binding strength. -/
theorem isSome_precedence? (k : Kind) : k.precedence?.isSome = k.isOperator := by
  cases k <;> rfl

theorem isOperator_of_isPrefixOperator {k : Kind} (h : k.isPrefixOperator = true) :
    k.isOperator = true := by cases k <;> simp_all [isPrefixOperator, isOperator, role]

end Kind
end Formula
