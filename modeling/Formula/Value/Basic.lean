/-!
Values of the language: numbers, text, truth values, null, and arrays whose entries may carry
a key.
-/
namespace Formula

mutual

inductive Value
  | null
  | bool (b : Bool)
  | number (x : Float)
  | text (s : String)
  | array (entries : List Entry)

/-- One element of an array. -/
inductive Entry
  | positional (v : Value)
  | keyed (key : String) (v : Value)

end

instance : Inhabited Value := ⟨.null⟩
instance : Inhabited Entry := ⟨.positional .null⟩

namespace Value

def typeName : Value → String
  | .number _ => "Number"
  | .text _ => "Text"
  | .bool _ => "Boolean"
  | .null => "Null"
  | .array _ => "Array"

/-- The text of a text value. -/
def text? : Value → Option String
  | .text s => some s
  | _ => none

/-- The entries of an array. -/
def entries? : Value → Option (List Entry)
  | .array es => some es
  | _ => none

end Value

namespace Entry

def value : Entry → Value
  | .positional v => v
  | .keyed _ v => v

def key? : Entry → Option String
  | .positional _ => none
  | .keyed k _ => some k

@[simp] theorem value_positional (v : Value) : (positional v).value = v := rfl
@[simp] theorem value_keyed (k : String) (v : Value) : (keyed k v).value = v := rfl
@[simp] theorem key?_positional (v : Value) : (positional v).key? = none := rfl
@[simp] theorem key?_keyed (k : String) (v : Value) : (keyed k v).key? = some k := rfl

end Entry
end Formula
