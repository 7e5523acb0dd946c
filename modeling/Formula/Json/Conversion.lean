import Formula.Environment
import Formula.Json.Printer
import Formula.Json.Reader

/-!
Values and JSON. An array without keys is a JSON array; any other array is an object, in which
the entries without a key are numbered around the keys that are there. An object becomes an
array with keys.
-/
namespace Formula

namespace Entries

/-- The least number from `n` on whose text is not taken. -/
def nextFree (taken : List String) : Nat → Nat → Nat
  | 0, n => n
  | fuel + 1, n => if toString n ∈ taken then nextFree taken fuel (n + 1) else n

/-- The names of entries as members of an object, from the number `n` on. -/
def memberNames (taken : List String) (n : Nat) : Entries → List String
  | [] => []
  | .keyed k _ :: es => k :: memberNames taken n es
  | .positional _ :: es =>
    let free := nextFree taken taken.length n
    toString free :: memberNames taken (free + 1) es

/-- The name under which each entry of an array is a member of an object. -/
def names (es : Entries) : List String := memberNames es.keys 0 es

end Entries

/-- The JSON number of a double; what is not finite has none. -/
def Json.ofDouble (x : Float) : Json :=
  match Double.view x with
  | .finite .. => .number (.double x)
  | _ => .null

mutual

def Value.toJson : Value → Json
  | .null => .null
  | .bool b => .bool b
  | .number x => .ofDouble x
  | .text s => .string s
  | .array es =>
    if Entries.isPlainList es then .array (toJsonItems es)
    else .object (Json.membersOf ((Entries.names es).zip (toJsonItems es)))

def toJsonItems : List Entry → List Json
  | [] => []
  | .positional v :: es => v.toJson :: toJsonItems es
  | .keyed _ v :: es => v.toJson :: toJsonItems es

end

mutual

/-- The JSON text of a value, written without making a document first. -/
def Value.jsonText : Value → String
  | .null => "null"
  | .bool b => if b then "true" else "false"
  | .number x => Layout.json.write x
  | .text s => Json.quoted s
  | .array es =>
    if Entries.isPlainList es then "[" ++ ",".intercalate (jsonTexts es) ++ "]"
    else "\x7b" ++ ",".intercalate
      (((Entries.names es).zip (jsonTexts es)).map fun (k, t) => Json.quoted k ++ ":" ++ t) ++ "\x7d"

def jsonTexts : List Entry → List String
  | [] => []
  | .positional v :: es => v.jsonText :: jsonTexts es
  | .keyed _ v :: es => v.jsonText :: jsonTexts es

end

mutual

def Value.ofJson : Json → Value
  | .null => .null
  | .bool b => .bool b
  | .number n => .number n.toDouble
  | .string s => .text s
  | .array items => .array (ofJsonItems items)
  | .object members => .array (Entries.ofPairs (ofJsonMembers members))

def ofJsonItems : List Json → List Entry
  | [] => []
  | j :: js => .positional (Value.ofJson j) :: ofJsonItems js

def ofJsonMembers : List (String × Json) → List (String × Value)
  | [] => []
  | (k, j) :: ms => (k, Value.ofJson j) :: ofJsonMembers ms

end

namespace Fault

/-- Text that is no JSON document. -/
def invalidJson : Fault := ofSyntax .unexpectedInput "JSON parse error"

/-- A document of constants that is no object. -/
def notAnObject (j : Json) : Fault :=
  (ofRuntime .invalidOperand
    ("expected a JSON object of constants, got " ++ j.typeName)).withSuggestion
    "wrap the values in an object, e.g. \x7b\"price\": 10\x7d"

end Fault

/-- The constants that a JSON object names. The bytes have to be UTF-8. -/
def constantsOfJson (bytes : ByteArray) : Except Fault (List (String × Value)) :=
  match (String.fromUTF8? bytes).bind Json.parse? with
  | none => .error .invalidJson
  | some (.object members) => .ok (ofJsonMembers members)
  | some j => .error (.notAnObject j)

/-- Text that is JSON as the value of the document, any other text as it stands. -/
def Value.ofArgument (text : String) : Value :=
  match Json.parse? text with
  | some j => .ofJson j
  | none => .text text

end Formula
