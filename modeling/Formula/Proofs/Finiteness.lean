import Formula.Json.Basic
import Formula.Proofs.Decimals

/-! Which doubles are finite. What is not beyond the greatest double rounds to a finite one. Main
statement: a whole number that fits 64 bits has a finite double. -/
namespace Formula

open Shortest (upper upper_most)

namespace Double

/-- A double that stands for a number. -/
def IsFinite (x : Float) : Prop := ∃ negative m q, view x = .finite negative m q

variable {x : Float} {n : Nat} {v : ℚ}

theorem isFinite_of_nearest {negative : Bool} (h : (view x).Nearest negative v)
    (hv : v < upper (2 ^ 53 - 1) 971) : IsFinite x := by
  unfold IsFinite
  cases hx : view x with
  | nan => rw [hx] at h; cases h
  | infinite =>
    rw [hx] at h
    cases h with
    | infinite hle => exact absurd hv hle.not_gt
  | finite negative m q => exact ⟨negative, m, q, rfl⟩

theorem isFinite_neg (h : IsFinite x) : IsFinite (-x) := by
  obtain ⟨negative, m, q, hx⟩ := h
  exact ⟨!negative, m, q, by rw [view_neg, hx, View.neg]⟩

theorem view_ofNat_zero : view (Float.ofNat 0) = .finite false 0 (-1074) := by
  decide +kernel

/-- The double of a whole number that fits 64 bits is finite. -/
theorem isFinite_ofNat (h : n < 2 ^ 64) : IsFinite (Float.ofNat n) := by
  rcases Nat.eq_zero_or_pos n with rfl | hn
  · exact ⟨_, _, _, view_ofNat_zero⟩
  · have hnearest : (view (Float.ofNat n)).Nearest false (n * 10 ^ (0 : Int)) :=
      nearest_ofScientific (s := false) (k := 0) hn rfl (by omega) (by norm_num)
    refine isFinite_of_nearest hnearest ?_
    have hn' : (n : ℚ) < 2 ^ 64 := by exact_mod_cast h
    rw [zpow_zero, mul_one, upper_most]
    calc (n : ℚ) < 2 ^ 64 := hn'
      _ ≤ (2 ^ 53 - 1 / 2) * 2 ^ (12 : Int) := by norm_num
      _ ≤ (2 ^ 53 - 1 / 2) * 2 ^ (971 : Int) :=
        mul_le_mul_of_nonneg_left (zpow_le_zpow_right₀ one_le_two (by norm_num)) (by norm_num)

end Double

/-- A number of a document as it is kept: whole only if it fits 64 bits, and finite otherwise. -/
def JsonNumber.Fits : JsonNumber → Prop
  | .whole n => -2 ^ 63 ≤ n ∧ n < 2 ^ 64
  | .double x => Double.IsFinite x

/-- Every number of a document has a finite double. -/
theorem JsonNumber.isFinite_toDouble {n : JsonNumber} (h : n.Fits) :
    Double.IsFinite n.toDouble := by
  cases n with
  | double x => exact h
  | whole n =>
    have hfinite : Double.IsFinite (Float.ofNat n.natAbs) := by
      have hle : -2 ^ 63 ≤ n := h.1
      have hlt : n < 2 ^ 64 := h.2
      exact Double.isFinite_ofNat (by omega)
    rw [JsonNumber.toDouble, Double.withSign]
    split
    · exact Double.isFinite_neg hfinite
    · exact hfinite

end Formula
