/-!
Binary floating-point numbers taken apart: sign, significand and power of two, the order of
their values, and the remainder of a division, all in exact integer arithmetic.
-/
namespace Formula.Double

/-- What a double stands for. A finite one is `significand * 2 ^ exponent`, up to its sign. -/
inductive View
  | nan
  | infinite (negative : Bool)
  | finite (negative : Bool) (significand : Nat) (exponent : Int)
  deriving DecidableEq

/-- The fields of the 64-bit format; subnormal numbers share the least exponent. -/
def view (x : Float) : View :=
  let bits := x.toBits.toNat
  let negative := decide (1 <<< 63 ≤ bits)
  let biased : Nat := (bits >>> 52) % (1 <<< 11)
  let fraction := bits % (1 <<< 52)
  if biased = 2047 then
    if fraction = 0 then .infinite negative else .nan
  else if biased = 0 then .finite negative fraction (-1074)
  else .finite negative (fraction + (1 <<< 52)) (biased - 1075)

/-- The position of a double among all doubles, zero for both zeros; NaN has none. -/
def rank? (x : Float) : Option Int :=
  let bits := x.toBits.toNat
  let magnitude : Nat := bits % (1 <<< 63)
  if 0x7FF0000000000000 < magnitude then none
  else some (if bits < 1 <<< 63 then (magnitude : Int) else -(magnitude : Int))

/-- The order of two values; NaN is not ordered with anything. -/
def compare? (x y : Float) : Option Ordering :=
  match rank? x, rank? y with
  | some a, some b => some (compare a b)
  | _, _ => none

/-- Either zero. -/
def isZero (x : Float) : Bool := rank? x == some 0

/-- Equality of values: the zeros are equal, and NaN equals nothing. -/
def equal (x y : Float) : Bool := compare? x y == some .eq

def nan : Float := 0.0 / 0.0

def infinity : Float := 1.0 / 0.0

def withSign (negative : Bool) (x : Float) : Float := if negative then -x else x

/-- The remainder of the division truncated toward zero; it has the sign of the dividend. -/
def remainder (x y : Float) : Float :=
  match view x, view y with
  | .finite negative m p, .finite _ n q =>
    if n = 0 then nan
    else
      let low := min p q
      let rest := (m <<< (p - low).toNat) % (n <<< (q - low).toNat)
      withSign negative ((Float.ofNat rest).scaleB low)
  | .finite .., .infinite _ => x
  | _, _ => nan

end Formula.Double
