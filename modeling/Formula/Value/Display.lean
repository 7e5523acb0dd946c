import Formula.Number.Layout
import Formula.Number.Numeral
import Formula.Text.Quoted
import Formula.Value.Basic

/-!
The text that shows a value. Inside an array text is quoted, and so are keys, except keys that
read as numbers.
-/
namespace Formula

/-- A key as it stands before its arrow. -/
def keyDisplay (k : String) : List Char :=
  if (Numeral.read? k.toList).isSome then k.toList else Text.quotedChars k.toList

mutual

def Value.displayChars : Value → List Char
  | .number x => (Layout.plain.write x).toList
  | .text s => s.toList
  | .bool b => if b then ['t', 'r', 'u', 'e'] else ['f', 'a', 'l', 's', 'e']
  | .null => ['n', 'u', 'l', 'l']
  | .array es => '[' :: (displayEntries es ++ [']'])

def Entry.displayChars : Entry → List Char
  | .positional v => displayItem v
  | .keyed k v => keyDisplay k ++ ' ' :: '-' :: '>' :: ' ' :: displayItem v

/-- A value inside an array. -/
def displayItem : Value → List Char
  | .number x => (Layout.plain.write x).toList
  | .text s => Text.quotedChars s.toList
  | .bool b => if b then ['t', 'r', 'u', 'e'] else ['f', 'a', 'l', 's', 'e']
  | .null => ['n', 'u', 'l', 'l']
  | .array es => '[' :: (displayEntries es ++ [']'])

def displayEntries : List Entry → List Char
  | [] => []
  | e :: es => e.displayChars ++ displayMore es

/-- The entries after the first, each behind a comma. -/
def displayMore : List Entry → List Char
  | [] => []
  | e :: es => ',' :: ' ' :: (e.displayChars ++ displayMore es)

end

def Value.display (v : Value) : String := String.ofList v.displayChars

/-- What text does in an array and nothing else does: it is quoted. -/
theorem displayItem_eq (v : Value) :
    displayItem v = match v with
      | .text s => Text.quotedChars s.toList
      | _ => v.displayChars := by
  cases v <;> simp only [displayItem, Value.displayChars]

end Formula
