import Formula.Json.Basic
import Formula.Number.Numeral

/-!
Numbers in JSON text. The significand is collected in 64 bits. Digits that no longer fit are
dropped: before the point they still count as places, after it they do not. The significand is
then scaled by one power of ten, so that the last bit of a long numeral can differ from the
nearest double.
-/
namespace Formula.Json

open Numeral (isDigit digitValue ofDigits)

/-- The first significand that does not fit. -/
def significandLimit : Nat := UInt64.size

/-- Appends digits to a significand as long as it fits, and counts those that are left. -/
def extend (significand : Nat) : List Char → Nat × Nat
  | [] => (significand, 0)
  | c :: digits =>
    let extended := 10 * significand + digitValue c
    if extended < significandLimit then extend extended digits
    else (significand, digits.length + 1)

/-- The largest exponent with a power of ten among the doubles. -/
def largestPower : Nat := 308

/-- Divides by large powers of ten until the exponent is small enough, or nothing is left. -/
def scaleDown : Nat → Float → Int → Float
  | 0, x, _ => x
  | fuel + 1, x, e =>
    if e.natAbs ≤ largestPower then x / Double.ofDecimal 1 e.natAbs
    else if Double.isZero x then x
    else scaleDown fuel (x / Double.ofDecimal 1 largestPower) (e + largestPower)

/-- The significand times a power of ten; nothing if that is too large for a double. -/
def scale (significand : Nat) (e : Int) : Option Float :=
  let x := Float.ofNat significand
  if e < 0 then some (scaleDown 8 x e)
  else if e.natAbs ≤ largestPower then
    let y := x * Double.ofDecimal 1 e
    if Double.equal y Double.infinity then none else some y
  else if significand = 0 then some x
  else none

/-- The limit that exponents are read up to. -/
def exponentLimit : Nat := 1 <<< 31

/-- The end of a number, an exponent or nothing. -/
def readExponent (significand : Nat) (places : Int) : List Char → Option (Float × List Char)
  | [] => (scale significand places).map (·, [])
  | c :: cs =>
    if c = 'e' ∨ c = 'E' then
      let (negative, cs) := Numeral.sign cs
      let digits := cs.takeWhile isDigit
      let rest := cs.dropWhile isDigit
      let n := ofDigits digits
      if digits.isEmpty then none
      else if exponentLimit ≤ n then
        if significand ≠ 0 ∧ ¬negative then none else some (0.0, rest)
      else (scale significand (if negative then places - n else places + n)).map (·, rest)
    else (scale significand places).map (·, c :: cs)

/-- The digits behind the point, at least one, and the end of the number. -/
def readFraction (significand : Nat) (places : Int) (cs : List Char) :
    Option (Float × List Char) :=
  let digits := cs.takeWhile isDigit
  let (extended, left) := extend significand digits
  if digits.isEmpty then none
  else readExponent extended (places - (digits.length - left)) (cs.dropWhile isDigit)

/-- A whole number that fits, with the sign that stands before it; negative zero is a double,
and so is what does not fit with its sign. -/
def wholeNumber (negative : Bool) (n : Nat) : JsonNumber :=
  if negative then
    if n = 0 ∨ 1 <<< 63 < n then .double (-(Float.ofNat n)) else .whole (-(n : Int))
  else .whole n

/-- A number behind its sign, and the text behind the number. -/
def readUnsigned (negative : Bool) (cs : List Char) : Option (JsonNumber × List Char) :=
  let digits := cs.takeWhile isDigit
  let signed (r : Option (Float × List Char)) : Option (JsonNumber × List Char) :=
    r.map fun (x, rest) => (.double (Double.withSign negative x), rest)
  if digits.isEmpty || (digits.length ≠ 1 && digits.head? == some '0') then none
  else
    let (significand, left) := extend 0 digits
    match left, cs.dropWhile isDigit with
    | places, '.' :: rest => signed (readFraction significand places rest)
    | 0, c :: rest =>
      if c = 'e' ∨ c = 'E' then signed (readExponent significand 0 (c :: rest))
      else some (wholeNumber negative significand, c :: rest)
    | 0, [] => some (wholeNumber negative significand, [])
    | places, rest => signed (readExponent significand places rest)

/-- A number at the front of a text. -/
def readNumber (cs : List Char) : Option (JsonNumber × List Char) :=
  match cs with
  | '-' :: rest => readUnsigned true rest
  | _ => readUnsigned false cs

end Formula.Json
