import Formula.Number.Shortest

/-!
Writing doubles. A layout is the list of decisions that one written form of numbers makes on
top of the shortest digits.
-/
namespace Formula

open Shortest (Decimal)

/-- How numbers are written: what breaks a tie between two shortest decimals, which decimal
exponents are written out in full, whether a whole number keeps one decimal, and the texts for
what is no finite number. -/
structure Layout where
  tieToEven : Bool
  positional : Int → Bool
  keepsDecimal : Bool
  nan : String
  infinity : String
  negativeInfinity : String

namespace Layout

def zeros (n : Nat) : List Char := List.replicate n '0'

/-- Digits with the point after the first `point` of them, zeros filling the places between. -/
def positionalText (keepsDecimal : Bool) (digits : List Char) (point : Int) : List Char :=
  if point ≤ 0 then '0' :: '.' :: (zeros (-point).toNat ++ digits)
  else if digits.length ≤ point.toNat then
    digits ++ zeros (point.toNat - digits.length) ++ (if keepsDecimal then ['.', '0'] else [])
  else digits.take point.toNat ++ '.' :: digits.drop point.toNat

/-- One digit before the point and a signed exponent. -/
def scientificText (digits : List Char) (exponent : Int) : List Char :=
  let head := digits.take 1
  let tail := digits.drop 1
  head ++ (if tail.isEmpty then [] else '.' :: tail) ++
    'e' :: (if exponent < 0 then '-' else '+') :: exponent.natAbs.repr.toList

/-- The text of `d`, a positive decimal. -/
def decimalText (l : Layout) (d : Decimal) : List Char :=
  let digits := d.coefficient.repr.toList
  let point := d.exponent + digits.length
  if l.positional (point - 1) then positionalText l.keepsDecimal digits point
  else scientificText digits (point - 1)

/-- The text of a number without its sign. -/
def magnitudeText (l : Layout) (significand : Nat) (exponent : Int) : List Char :=
  if significand = 0 then '0' :: (if l.keepsDecimal then ['.', '0'] else [])
  else l.decimalText (Shortest.decimal l.tieToEven significand exponent)

def write (l : Layout) (x : Float) : String :=
  match Double.view x with
  | .nan => l.nan
  | .infinite negative => if negative then l.negativeInfinity else l.infinity
  | .finite negative m q =>
    String.ofList ((if negative then ['-'] else []) ++ l.magnitudeText m q)

/-- Numbers as the language shows them: never an exponent, and no decimals that say nothing. -/
def plain : Layout where
  tieToEven := false
  positional _ := true
  keepsDecimal := false
  nan := "NaN"
  infinity := "inf"
  negativeInfinity := "-inf"

end Layout
end Formula
