import Formula.Number.Double

/-!
Decimal numerals: an optional sign, digits with at most one point among them, and an optional
exponent. Nothing may stand around a numeral. The value is the nearest double.
-/
namespace Formula

namespace Double

/-- The nearest double to `m * 10 ^ e`. Decimals beyond the range of doubles are settled by
their size alone, so that no large power is ever computed. -/
def ofDecimal (m : Nat) (e : Int) : Float :=
  if m = 0 then 0.0
  else
    let width : Int := m.repr.length
    if 310 < e + width then infinity
    else if e + width < -330 then 0.0
    else Float.ofScientific m (decide (e < 0)) e.natAbs

end Double

namespace Numeral

def isDigit (c : Char) : Bool := '0' ≤ c && c ≤ '9'

def digitValue (c : Char) : Nat := c.toNat - '0'.toNat

/-- The number that decimal digits spell. -/
def ofDigits (digits : List Char) : Nat := digits.foldl (fun n c => 10 * n + digitValue c) 0

/-- A numeral without sign and exponent: the digits before the point, and those after it if
there is a point. Not both runs of digits are empty. -/
structure Mantissa where
  whole : List Char
  fraction : Option (List Char)

namespace Mantissa

def spelling (m : Mantissa) : List Char :=
  m.whole ++ match m.fraction with
    | some fraction => '.' :: fraction
    | none => []

def digits (m : Mantissa) : List Char := m.whole ++ m.fraction.getD []

/-- Takes the longest mantissa off the front of a text. -/
def cut? (cs : List Char) : Option (Mantissa × List Char) :=
  match cs.dropWhile isDigit with
  | '.' :: rest =>
    let m : Mantissa := ⟨cs.takeWhile isDigit, some (rest.takeWhile isDigit)⟩
    if m.digits.isEmpty then none else some (m, rest.dropWhile isDigit)
  | rest =>
    let m : Mantissa := ⟨cs.takeWhile isDigit, none⟩
    if m.digits.isEmpty then none else some (m, rest)

/-- The value of a mantissa scaled by a power of ten. -/
def value (m : Mantissa) (exponent : Int) : Float :=
  Double.ofDecimal (ofDigits m.digits) (exponent - (m.fraction.getD []).length)

theorem length_digits_le (m : Mantissa) : m.digits.length ≤ m.spelling.length := by
  obtain ⟨whole, fraction⟩ := m
  cases fraction <;> simp [digits, spelling]

/-- What was cut off and what is left make up the text. -/
theorem cut?_eq_some {cs rest : List Char} {m : Mantissa} (h : cut? cs = some (m, rest)) :
    m.spelling ++ rest = cs ∧ m.digits ≠ [] := by
  have hcs := List.takeWhile_append_dropWhile (p := isDigit) (l := cs)
  unfold cut? at h
  split at h
  · next behind hbehind =>
    dsimp only at h
    split at h
    · cases h
    · next hd =>
      cases h
      refine ⟨?_, by simpa using hd⟩
      rw [hbehind] at hcs
      simpa [spelling] using hcs
  · dsimp only at h
    split at h
    · cases h
    · next hd =>
      cases h
      exact ⟨by simp [spelling, hcs], by simpa using hd⟩

end Mantissa

/-- Takes a sign off the front of a text; true stands for minus. -/
def sign : List Char → Bool × List Char
  | '-' :: rest => (true, rest)
  | '+' :: rest => (false, rest)
  | rest => (false, rest)

/-- The exponent that ends a numeral. -/
def exponent? : List Char → Option Int
  | [] => some 0
  | c :: rest =>
    if c = 'e' ∨ c = 'E' then
      let (negative, digits) := sign rest
      if digits.isEmpty || !digits.all isDigit then none
      else some (if negative then -(ofDigits digits : Int) else ofDigits digits)
    else none

/-- Reads a decimal as the nearest double. The names of what is no number would pass for decimals as
well; they are kept away from here. -/
def decimal? (cs : List Char) : Option Float := do
  let (negative, body) := sign cs
  let (m, rest) ← Mantissa.cut? body
  let exponent ← exponent? rest
  return Double.withSign negative (m.value exponent)

/-- What stands in front of an exponent. -/
def isLetter (c : Char) : Bool := c == 'e' || c == 'E'

/-- Whether the rest of an exponent behind its letter is digits, with a sign or none. -/
def exponentPasses (cs : List Char) : Bool :=
  let digits := (sign cs).2
  !digits.isEmpty && digits.all isDigit

/-- Counts digits and points, up to anything else. -/
def count? (counts : Nat × Nat) : List Char → Option (Nat × Nat)
  | [] => some counts
  | c :: cs =>
    if isDigit c then count? (counts.1 + 1, counts.2) cs
    else if c = '.' then count? (counts.1, counts.2 + 1) cs
    else none

/-- Whether there are digits, one point at most, and nothing else. -/
def mantissaPasses (cs : List Char) : Bool :=
  match count? (0, 0) cs with
  | some (digits, points) => digits != 0 && decide (points ≤ 1)
  | none => false

/-- Whether a text is a numeral. The first letter of an exponent divides it. -/
def passes (cs : List Char) : Bool :=
  let body := (sign cs).2
  match body.dropWhile fun c => !isLetter c with
  | [] => mantissaPasses body
  | _ :: exponent =>
    exponentPasses exponent && mantissaPasses (body.takeWhile fun c => !isLetter c)

/-- The double nearest to the numeral that the text is; nothing for any other text. -/
def read? (cs : List Char) : Option Float := if passes cs then decimal? cs else none

end Numeral
end Formula
