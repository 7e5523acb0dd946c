import Formula.Number.Double

/-!
The shortest decimal that reads back as a given double. The doubles next to `m * 2 ^ q` leave
it an interval of reals; the coarsest decimal grid with a point in that interval gives the
digits, and of two such points the nearer one.
-/
namespace Formula.Shortest

/-- The decimal `coefficient * 10 ^ exponent`. -/
structure Decimal where
  coefficient : Nat
  exponent : Int
  deriving DecidableEq

/-- `10 ^ k`, or one when `k` is negative. -/
def power (k : Int) : Nat := Nat.pow 10 k.toNat

/-- The interval that rounds to a double, its ends and middle over a common denominator. -/
structure Interval where
  low : Nat
  middle : Nat
  high : Nat
  unit : Nat
  closed : Bool

/-- The gap below a power of two is half the gap above it, except at the least exponent.
Ends belong to the interval when the significand is even. -/
def interval (m : Nat) (q : Int) : Interval :=
  let gap := if m = 1 <<< 52 ∧ -1074 < q then 1 else 2
  let scale := (q - 2).toNat
  { low := (4 * m - gap) <<< scale
    middle := (4 * m) <<< scale
    high := (4 * m + 2) <<< scale
    unit := 1 <<< (2 - q).toNat
    closed := m % 2 == 0 }

namespace Interval

/-- Whether `s * 10 ^ k` lies in the interval. -/
def holds (i : Interval) (k : Int) (s : Nat) : Bool :=
  let value := s * power k * i.unit
  let low := i.low * power (-k)
  let high := i.high * power (-k)
  if i.closed then decide (low ≤ value ∧ value ≤ high) else decide (low < value ∧ value < high)

/-- The number of decimal places left of the point: the least `p` with `middle < 10 ^ p`. -/
def magnitude (i : Interval) : Int :=
  let guess := ((i.middle.log2 : Int) - i.unit.log2) * 30103 / 100000
  let below (p : Int) : Bool := i.middle * power (-p) < i.unit * power p
  ([guess - 1, guess, guess + 1].find? below).getD (guess + 2)

/-- The point of the grid of step `10 ^ k` that is in the interval and nearest to its middle. -/
def onGrid? (i : Interval) (tieToEven : Bool) (k : Int) : Option Nat :=
  let middle := i.middle * power (-k)
  let step := power k * i.unit
  let s := middle / step
  match i.holds k s, i.holds k (s + 1) with
  | true, false => some s
  | false, true => some (s + 1)
  | false, false => none
  | true, true =>
    match compare (2 * middle) ((2 * s + 1) * step) with
    | .lt => some s
    | .gt => some (s + 1)
    | .eq => some (if tieToEven && s % 2 == 0 then s else s + 1)

end Interval

/-- Moves trailing zeros of the coefficient into the exponent, at most `fuel` of them. -/
def dropZeros : Nat → Decimal → Decimal
  | 0, d => d
  | fuel + 1, d =>
    if d.coefficient ≠ 0 ∧ d.coefficient % 10 = 0 then
      dropZeros fuel ⟨d.coefficient / 10, d.exponent + 1⟩
    else d

/-- The shortest decimal of a positive double; seventeen digits always suffice. -/
def decimal (tieToEven : Bool) (m : Nat) (q : Int) : Decimal :=
  let i := interval m q
  let p := i.magnitude
  let found := (List.range 17).findSome? fun (n : Nat) =>
    let k : Int := p - (n + 1)
    (i.onGrid? tieToEven k).map (Decimal.mk · k)
  dropZeros 20 (found.getD ⟨0, 0⟩)

end Formula.Shortest
