import Formula.Value.Display

/-!
How values pass for one another: the number, the text and the truth value of a value, equality
of structure, and the order that comparisons use.
-/
namespace Formula

namespace Value

/-- The double nearest to an integer, as a value. -/
def ofInt (n : Int) : Value := .number (Double.withSign (decide (n < 0)) (Float.ofNat n.natAbs))

/-- The number that a value passes for. Text passes for a number when it is a numeral. -/
def number? : Value → Option Float
  | .number x => some x
  | .bool b => some (if b then 1.0 else 0.0)
  | .null => some 0.0
  | .text s => Numeral.read? s.toList
  | .array _ => none

/-- The text that a value passes for; null is empty text. -/
def asText : Value → String
  | .text s => s
  | .null => ""
  | v => v.display

/-- Null, zero, empty text, `false` and the empty array count as false. -/
def truthy : Value → Bool
  | .number x => !Double.isZero x
  | .text s => !s.isEmpty
  | .bool b => b
  | .null => false
  | .array es => !es.isEmpty

/-- A value as it stands in a message: text is quoted. -/
def quoted : Value → String
  | .text s => Text.quoted s
  | v => v.display

/-- The order of two values: by number if both pass for one, else by text. NaN has no order. -/
def compare? (v w : Value) : Option Ordering :=
  match v.number?, w.number? with
  | some x, some y => Double.compare? x y
  | _, _ => some (compare v.asText w.asText)

end Value

mutual

/-- Equality of structure: values of one kind with equal contents. NaN equals nothing. -/
def Value.equal : Value → Value → Bool
  | .null, .null => true
  | .bool a, .bool b => a == b
  | .number x, .number y => Double.equal x y
  | .text s, .text t => s == t
  | .array es, .array fs => equalEntries es fs
  | _, _ => false

def Entry.equal : Entry → Entry → Bool
  | .positional v, .positional w => v.equal w
  | .keyed k v, .keyed l w => k == l && v.equal w
  | _, _ => false

def equalEntries : List Entry → List Entry → Bool
  | [], [] => true
  | e :: es, f :: fs => e.equal f && equalEntries es fs
  | _, _ => false

end

end Formula
