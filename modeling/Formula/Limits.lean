/-!
What one evaluation may cost.
-/
namespace Formula

/-- The longest expression in bytes, the most brackets open at once, the most tokens, and the
most milliseconds. -/
structure Limits where
  bytes : Nat
  depth : Nat
  steps : Nat
  time : Nat
  deriving DecidableEq

namespace Limits

/-- A wide margin around ordinary formulas. -/
def standard : Limits := ⟨64 * 1024, 100, 100000, 1000⟩

/-- The largest count that a machine word holds, everywhere. -/
def unlimited : Limits :=
  ⟨UInt64.size - 1, UInt64.size - 1, UInt64.size - 1, UInt64.size - 1⟩

instance : Inhabited Limits := ⟨standard⟩

end Limits
end Formula
