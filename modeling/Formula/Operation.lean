import Formula.Fault
import Formula.Value.Coercion
import Formula.Value.Entries

/-!
What the operators do when nobody overrides them. An operator decides for itself what its
operands have to pass for: `+` adds numbers and joins other texts, `||` joins arrays and texts,
comparisons are by number or by text, and the logical operators work on truth values.
-/
namespace Formula

namespace Fault

/-- An operator in a place where only others can stand. -/
def notApplicable (op : Kind) (position : String) : Fault :=
  ofRuntime (.unsupportedOperator op) (op.name ++ " is not a " ++ position ++ " operator")

/-- An operand that does not pass for a number. -/
def notNumeric (op : Kind) (v : Value) : Fault :=
  ofRuntime .invalidOperand
    ("operator '" ++ op.symbol ++ "' expects a number, got " ++ v.typeName ++ " " ++ v.quoted)

/-- An array where an operator takes none. -/
def arrayOperand (op : Kind) : Fault :=
  (ofRuntime .invalidOperand
    ("operator '" ++ op.symbol ++ "' cannot be applied to an array")).withSuggestion
    "use || to concatenate arrays"

def divisionByZero : Fault := ofRuntime .divisionByZero "division by zero"

def modulusByZero : Fault := ofRuntime .modulusByZero "modulus by zero"

/-- Membership in what has no members. -/
def notAnArray (v : Value) : Fault :=
  ofRuntime .invalidOperand ("right operand of 'in' must be an array, got " ++ v.typeName)

def arrayKey : Fault := ofRuntime .invalidOperand "an array cannot be used as an array key"

end Fault

namespace Operation

/-- The number that the operand of an operator passes for. -/
def numeric (op : Kind) (v : Value) : Except Fault Float :=
  match v.number? with
  | some x => .ok x
  | none => .error (.notNumeric op v)

def applyPrefix (op : Kind) (v : Value) : Except Fault Value :=
  match op with
  | .unaryPlus => return .number (← numeric op v)
  | .unaryMinus => return .number (-(← numeric op v))
  | .not => .ok (.bool !v.truthy)
  | _ => .error (.notApplicable op "prefix")

/-- Arrays have no sum; two numbers are added, and anything else is joined as text. -/
def add (v w : Value) : Except Fault Value :=
  if v.entries?.isSome || w.entries?.isSome then .error (.arrayOperand .plus)
  else
    match v.number?, w.number? with
    | some x, some y => .ok (.number (x + y))
    | _, _ => .ok (.text (v.asText ++ w.asText))

def arithmetic (op : Kind) (x y : Float) : Except Fault Float :=
  match op with
  | .minus => .ok (x - y)
  | .times => .ok (x * y)
  | .div => if Double.isZero y then .error .divisionByZero else .ok (x / y)
  | .mod => if Double.isZero y then .error .modulusByZero else .ok (Double.remainder x y)
  | .pow => .ok (x.pow y)
  | _ => .error (.notApplicable op "numeric")

def concat : Value → Value → Value
  | .array es, .array fs => .array (Entries.concat es fs)
  | v, w => .text (v.asText ++ w.asText)

/-- Which orders a comparison operator asks for. -/
def agrees (op : Kind) (o : Ordering) : Bool :=
  match op with
  | .equal => o == .eq
  | .notEqual => o != .eq
  | .greater => o == .gt
  | .less => o == .lt
  | .greaterEqual => o != .lt
  | .lessEqual => o != .gt
  | _ => false

/-- Comparison by order. Without an order only `<>` holds. -/
def compareByOrder (op : Kind) (v w : Value) : Bool :=
  match v.compare? w with
  | some o => agrees op o
  | none => op == .notEqual

/-- Two arrays are equal when their structures are; all else is compared by order. -/
def comparison (op : Kind) (v w : Value) : Bool :=
  match v, op, w with
  | .array es, .equal, .array fs => equalEntries es fs
  | .array es, .notEqual, .array fs => !equalEntries es fs
  | _, _, _ => compareByOrder op v w

/-- Some value of an array is equal to `v`. -/
def membership (v w : Value) : Except Fault Value :=
  match w with
  | .array es => .ok (.bool ((Entries.values es).any fun x => comparison .equal v x))
  | _ => .error (.notAnArray w)

def applyInfix (op : Kind) (v w : Value) : Except Fault Value :=
  match op with
  | .plus => add v w
  | .minus | .times | .div | .mod | .pow => do
    let x ← numeric op v
    let y ← numeric op w
    return .number (← arithmetic op x y)
  | .concat => .ok (concat v w)
  | .equal | .notEqual | .greater | .less | .greaterEqual | .lessEqual =>
    .ok (.bool (comparison op v w))
  | .and => .ok (.bool (v.truthy && w.truthy))
  | .or => .ok (.bool (v.truthy || w.truthy))
  | .isIn => membership v w
  | _ => .error (.notApplicable op "infix")

end Operation

namespace Value

/-- The text under which an array stores a value with this key. -/
def key (v : Value) : Except Fault String :=
  match v with
  | .array _ => .error .arrayKey
  | _ => .ok v.asText

end Value

namespace Entries

/-- Stores an entry of an array literal, under its key if it has one. -/
def store (es : Entries) (key : Option Value) (v : Value) : Except Fault Entries :=
  match key with
  | none => .ok (es.push v)
  | some k => k.key.map fun text => es.insert text v

end Entries
end Formula
