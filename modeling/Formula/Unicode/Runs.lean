/-!
Sets of characters as ascending lists of bounds: a set starts at the first bound, stops before
the second, starts again at the third, and so on.
-/
namespace Formula.Unicode

/-- Whether `n` is in the set with these bounds, when everything below the first bound is
`inside` it. -/
def inRuns (inside : Bool) : List Nat → Nat → Bool
  | [], _ => inside
  | b :: bs, n => if n < b then inside else inRuns (!inside) bs n

@[simp] theorem inRuns_nil (inside : Bool) (n : Nat) : inRuns inside [] n = inside := rfl

theorem inRuns_of_lt {n b : Nat} (inside : Bool) (bs : List Nat) (h : n < b) :
    inRuns inside (b :: bs) n = inside := if_pos h

/-- Exchanging the two sides of every bound gives the complement. -/
theorem inRuns_not (inside : Bool) (bs : List Nat) (n : Nat) :
    inRuns (!inside) bs n = !inRuns inside bs n := by
  induction bs generalizing inside with
  | nil => rfl
  | cons b bs ih => by_cases h : n < b <;> simp [inRuns, h, ih]

end Formula.Unicode
