import Formula.Number.Double

/-!
JSON documents. The members of an object keep their order and have different names.
-/
namespace Formula

/-- A number of a document: a whole number that fits 64 bits is kept as it is, and every other
number is a double. -/
inductive JsonNumber
  | whole (n : Int)
  | double (x : Float)

inductive Json
  | null
  | bool (b : Bool)
  | number (n : JsonNumber)
  | string (s : String)
  | array (items : List Json)
  | object (members : List (String × Json))

namespace JsonNumber

/-- The double nearest to a number. -/
def toDouble : JsonNumber → Float
  | whole n => Double.withSign (decide (n < 0)) (Float.ofNat n.natAbs)
  | double x => x

end JsonNumber

namespace Json

instance : Inhabited Json := ⟨.null⟩

/-- What a document is, in words. -/
def typeName : Json → String
  | null => "null"
  | bool _ => "a boolean"
  | number _ => "a number"
  | string _ => "a string"
  | array _ => "an array"
  | object _ => "an object"

/-- Sets a member, in its place if the name is there and at the end otherwise. -/
def setMember : List (String × Json) → String → Json → List (String × Json)
  | [], k, j => [(k, j)]
  | (l, i) :: ms, k, j => if l = k then (k, j) :: ms else (l, i) :: setMember ms k j

/-- The members that result from setting them one by one. -/
def membersOf (pairs : List (String × Json)) : List (String × Json) :=
  pairs.foldl (fun ms p => setMember ms p.1 p.2) []

/-- Setting a member adds its name at the end unless it is there already. -/
theorem names_setMember (ms : List (String × Json)) (k : String) (j : Json) :
    (setMember ms k j).map Prod.fst =
      if k ∈ ms.map Prod.fst then ms.map Prod.fst else ms.map Prod.fst ++ [k] := by
  induction ms with
  | nil => simp [setMember]
  | cons m ms ih =>
    obtain ⟨l, i⟩ := m
    by_cases h : l = k
    · simp [setMember, h]
    · by_cases hk : k ∈ ms.map Prod.fst <;> simp_all [setMember, Ne.symm h]

end Json
end Formula
