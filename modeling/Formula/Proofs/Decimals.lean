import Formula.Number.Numeral
import Formula.Proofs.Nearest

/-! Decimals read as doubles. Main statement: a decimal of any length, with any power of ten, is
read as the nearest double. -/
namespace Formula

open Float.Model UnpackedFloat
open Shortest (Rounds lower upper reach two_zpow_pos upper_most rounds_self)

namespace Double

variable {m n : Nat} {e q : Int}

/-- A whole number of at most 53 bits with its first bit moved to the front. -/
theorem exists_canonical (hn : 0 < n) (h : n < 2 ^ 53) :
    ∃ k : Nat, k = 52 - n.log2 ∧ 2 ^ 52 ≤ n * 2 ^ k ∧ n * 2 ^ k < 2 ^ 53 := by
  have hlog : n.log2 ≤ 52 := Nat.le_of_lt_succ ((Nat.log2_lt hn.ne').mpr h)
  refine ⟨_, rfl, ?_, ?_⟩
  · calc 2 ^ 52 = 2 ^ n.log2 * 2 ^ (52 - n.log2) := by rw [← Nat.pow_add]; congr 1; omega
      _ ≤ n * 2 ^ (52 - n.log2) := Nat.mul_le_mul_right _ (Nat.log2_self_le hn.ne')
  · calc n * 2 ^ (52 - n.log2) < 2 ^ (n.log2 + 1) * 2 ^ (52 - n.log2) :=
        Nat.mul_lt_mul_of_pos_right Nat.lt_log2_self (Nat.two_pow_pos _)
      _ = 2 ^ 53 := by rw [← Nat.pow_add]; congr 1; omega

/-- A whole number of at most 53 bits is its own double. -/
theorem view_toFloat (hn : 0 < n) (h : n < 2 ^ 53) :
    ∃ m q, view n.toUInt64.toFloat = .finite false m q ∧ 2 ^ 52 ≤ m ∧ (m * 2 ^ q : ℚ) = n := by
  obtain ⟨k, hk, hlow, hhigh⟩ := exists_canonical hn h
  have hnat : n.toUInt64.toNat = n := by
    simp
    omega
  have hcompare : compare (n : Int) 0 = .gt := Int.compare_eq_gt.mpr (by omega)
  have hshift : (0 - max ((n.log2 : Int) + 0 - 52) (-1074)).toNat = k := by omega
  have hvalue : (n : ℚ) / 2 ^ (0 - k : Int) = (n * 2 ^ k : Nat) := by
    rw [zero_sub, zpow_neg, div_inv_eq_mul, zpow_natCast]
    push_cast
    rfl
  have hrounded : Rounded n (UnpackedFloat.ofUInt64 .binary64 n.toUInt64) := by
    have hlog := (Nat.le_log2 (by omega)).mpr hlow
    simp only [UnpackedFloat.ofUInt64, hnat, UnpackedFloat.ofNat, UnpackedFloat.ofInt,
      UnpackedFloat.normalize, hcompare, Int.toNat_natCast, UnpackedFloat.round, decreaseExponent,
      targetExponent_eq, hshift, Nat.shiftLeft_eq]
    refine rounded_roundWithAccuracy ?_ (by omega)
    rw [hvalue]
    exact cuts_exact _
  have hself : ((n * 2 ^ k : Nat) * 2 ^ (0 - k : Int) : ℚ) = n := by
    rw [← hvalue, div_mul_cancel₀ _ (two_zpow_pos _).ne']
  refine ⟨n * 2 ^ k, 0 - k, ?_, hlow, hself⟩
  have hnearest : (view n.toUInt64.toFloat).Nearest false
      ((n * 2 ^ k : Nat) * 2 ^ (0 - k : Int)) := by
    rw [hself]
    exact hrounded.nearest
  exact hnearest.eq_finite ⟨hhigh, by omega, by omega, .inr hlow⟩

/-- Each power of ten in the table is a power of five with its first bit moved to the front. -/
theorem view_powersOfTen : ∀ k (h : k < Float.exactlyRepresentablePowersOfTen.size),
    view Float.exactlyRepresentablePowersOfTen[k] =
      .finite false (5 ^ k * 2 ^ (52 - (5 ^ k).log2)) (k - (52 - (5 ^ k).log2 : Nat)) := by
  decide +kernel

theorem view_power {k : Nat} (h : k < Float.exactlyRepresentablePowersOfTen.size) :
    ∃ m q, view Float.exactlyRepresentablePowersOfTen[k] = .finite false m q ∧ 0 < m ∧
      (m * 2 ^ q : ℚ) = 10 ^ k := by
  refine ⟨_, _, view_powersOfTen k h, by positivity, ?_⟩
  rw [zpow_sub₀ two_ne_zero, zpow_natCast, zpow_natCast]
  push_cast
  rw [show (10 : ℚ) = 5 * 2 by norm_num, mul_pow]
  field_simp

/-- A decimal that is not zero, from its digits and its power of ten. -/
theorem rounded_ofScientific (hm : 0 < m) (e : Int) (hlow : -(2048 + m.log2 : Int) ≤ e)
    (hhigh : e ≤ 2048) : Rounded (m * 10 ^ e) (UnpackedFloat.ofScientific .binary64 m e) := by
  have hpower : ((2 : Int) ^ Format.binary64.exponentBits) = 2048 := rfl
  rw [UnpackedFloat.ofScientific, dif_neg hm.ne', if_neg (by omega), if_neg (by omega)]
  by_cases he : 0 ≤ e
  · rw [if_pos he]
    have hbits : 2 ^ 52 ≤ (m <<< Format.binary64.mantissaBits) * 10 ^ e.toNat := by
      change 2 ^ 52 ≤ (m <<< 53) * 10 ^ e.toNat
      rw [Nat.shiftLeft_eq]
      have hpos := Nat.pow_pos (n := e.toNat) (by norm_num : 0 < 10)
      exact (by omega : 2 ^ 52 ≤ m * 2 ^ 53).trans (Nat.le_mul_of_pos_right _ hpos)
    have hvalue : (m * 10 ^ e : ℚ) = (m <<< Format.binary64.mantissaBits : Nat) *
        2 ^ (-(Format.binary64.mantissaBits : Int)) * ((10 ^ e.toNat : Nat) * 2 ^ (0 : Int)) := by
      have hten : (10 : ℚ) ^ e = 10 ^ e.toNat := by
        rw [← zpow_natCast, Int.toNat_of_nonneg he]
      rw [Nat.shiftLeft_eq, hten, zpow_neg, zpow_natCast]
      push_cast
      field_simp
    rw [hvalue]
    exact rounded_mul hbits _ _
  · rw [if_neg he]
    have hvalue : (m * 10 ^ e : ℚ) =
        m * 2 ^ (0 : Int) / ((10 ^ (-e).toNat : Nat) * 2 ^ (0 : Int)) := by
      have hten : (10 : ℚ) ^ e = (10 ^ (-e).toNat)⁻¹ := by
        rw [← zpow_natCast, ← zpow_neg, Int.toNat_of_nonneg (by omega), neg_neg]
      rw [hten]
      push_cast
      simp [div_eq_mul_inv]
    rw [hvalue]
    exact rounded_div _ _

theorem unpack_of_view {x : Float} (hm : 0 < m) (h : view x = .finite false m q) :
    x.toModel.unpack = .finite .positive m q hm := by
  rw [unpack_eq, h, View.unpacked, dif_neg hm.ne']
  rfl

/-- Short decimals are the product or the quotient of two doubles that are exact. -/
theorem nearest_short (hm : 0 < m) (h : m < 2 ^ 53) {k : Nat} (hk : k ≤ 22) (s : Bool) :
    (view (Float.ofScientific m s k)).Nearest false (m * 10 ^ (if s then -(k : Int) else k)) := by
  have hsize : k < Float.exactlyRepresentablePowersOfTen.size := by
    change k < 23
    omega
  obtain ⟨a, p, hnumber, hbits, ha⟩ := view_toFloat hm h
  obtain ⟨b, q, hpower, hb, hten⟩ := view_power hsize
  have hleft := unpack_of_view (by omega) hnumber
  have hright := unpack_of_view hb hpower
  rw [Float.ofScientific, dif_pos ⟨h, hk⟩]
  cases s with
  | false =>
    have hproduct : m.toUInt64.toFloat * Float.exactlyRepresentablePowersOfTen[k] =
        .ofModel (.pack (UnpackedFloat.mul .binary64 (.finite .positive a p (by omega))
          (.finite .positive b q hb))) := by
      rw [← hleft, ← hright]
      rfl
    simp only [Bool.false_eq_true, if_false, zpow_natCast, hproduct, ← ha, ← hten]
    exact (rounded_mul (hbits.trans (Nat.le_mul_of_pos_right a hb)) p q).nearest
  | true =>
    have hquotient : m.toUInt64.toFloat / Float.exactlyRepresentablePowersOfTen[k] =
        .ofModel (.pack (UnpackedFloat.div .binary64 (.finite .positive a p (by omega))
          (.finite .positive b q hb))) := by
      rw [← hleft, ← hright]
      rfl
    simp only [if_true, zpow_neg, zpow_natCast, hquotient, ← ha, ← hten]
    rw [← div_eq_mul_inv]
    exact (rounded_div p q).nearest

theorem negOfNat_eq (k : Nat) : Int.negOfNat k = -(k : Int) := by
  cases k <;> rfl

/-- A decimal of any length within the powers of ten that are computed. -/
theorem nearest_ofScientific (hm : 0 < m) {s : Bool} {k : Nat}
    (he : (if s then -(k : Int) else k) = e) (hlow : -(2048 + m.log2 : Int) ≤ e)
    (hhigh : e ≤ 2048) : (view (Float.ofScientific m s k)).Nearest false (m * 10 ^ e) := by
  by_cases hshort : m < 2 ^ 53 ∧ k ≤ 22
  · rw [← he]
    exact nearest_short hm hshort.1 hshort.2 s
  · have hlong : Float.ofScientific m s k =
        .ofModel (.pack (UnpackedFloat.ofScientific .binary64 m e)) := by
      rw [Float.ofScientific, dif_neg hshort, ← he]
      cases s with
      | false => rfl
      | true =>
        simp only [if_true, negOfNat_eq]
        rfl
    rw [hlong]
    exact (rounded_ofScientific hm e hlow hhigh).nearest

theorem view_zero : view 0.0 = .finite false 0 (-1074) := by
  decide +kernel

theorem view_infinity : view infinity = .infinite false := by
  decide +kernel

/-- The size of a number is told by the length of its digits. -/
theorem length_repr_bounds (hm : 0 < m) :
    ∃ w, m.repr.length = w + 1 ∧ 10 ^ w ≤ m ∧ m < 10 ^ (w + 1) := by
  have hpos := Nat.length_repr_pos (n := m)
  refine ⟨m.repr.length - 1, by omega, ?_, ?_⟩
  · by_contra hlt
    rw [not_le] at hlt
    rcases Nat.eq_zero_or_pos (m.repr.length - 1) with hw | hw
    · rw [hw] at hlt
      omega
    · have hle := (Nat.length_repr_le_iff hw).mpr hlt
      omega
  · rw [Nat.sub_add_cancel hpos]
    exact (Nat.length_repr_le_iff hpos).mp le_rfl

/-- Decimals with the point far enough to the right are beyond all doubles. -/
theorem upper_most_le {w : Nat} (hm : 10 ^ w ≤ m) (he : 310 ≤ w + e) :
    upper (2 ^ 53 - 1) 971 ≤ m * 10 ^ e := by
  have hm' : (10 : ℚ) ^ w ≤ m := by exact_mod_cast hm
  rw [upper_most]
  have hlimit : (2 : ℚ) ^ 1024 ≤ 10 ^ 310 := by
    exact_mod_cast (by decide +kernel : 2 ^ 1024 ≤ 10 ^ 310)
  calc ((2 : ℚ) ^ 53 - 1 / 2) * 2 ^ (971 : Int) ≤ 2 ^ 53 * 2 ^ (971 : Int) :=
        mul_le_mul_of_nonneg_right (by norm_num) (two_zpow_pos _).le
    _ = 2 ^ 1024 := by rw [← zpow_natCast, ← zpow_add₀ two_ne_zero]; rfl
    _ ≤ 10 ^ (310 : Int) := hlimit
    _ ≤ 10 ^ (w + e) := zpow_le_zpow_right₀ (by norm_num) he
    _ = 10 ^ w * 10 ^ e := by rw [zpow_add₀ (by norm_num), zpow_natCast]
    _ ≤ m * 10 ^ e := mul_le_mul_of_nonneg_right hm' (zpow_pos (by norm_num) e).le

/-- Decimals with the point far enough to the left round to zero. -/
theorem rounds_zero {w : Nat} (hm : m < 10 ^ w) (he : w + e ≤ -330) :
    Rounds 0 (-1074) (m * 10 ^ e) := by
  have hm' : (m : ℚ) ≤ 10 ^ w := by exact_mod_cast hm.le
  have hten : (0 : ℚ) < 10 ^ e := zpow_pos (by norm_num) e
  refine ⟨?_, ?_, fun hodd => absurd rfl hodd⟩
  · have hneg : lower 0 (-1074) ≤ 0 := by norm_num [lower, reach]
    exact hneg.trans (by positivity)
  · have hlimit : (2 : ℚ) ^ 1075 ≤ 10 ^ 330 := by
      exact_mod_cast (by decide +kernel : 2 ^ 1075 ≤ 10 ^ 330)
    calc (m : ℚ) * 10 ^ e ≤ 10 ^ w * 10 ^ e := mul_le_mul_of_nonneg_right hm' hten.le
      _ = 10 ^ (w + e) := by rw [zpow_add₀ (by norm_num), zpow_natCast]
      _ ≤ 10 ^ (-330 : Int) := zpow_le_zpow_right₀ (by norm_num) he
      _ = (10 ^ 330)⁻¹ := zpow_neg ..
      _ ≤ (2 ^ 1075)⁻¹ := inv_anti₀ (by positivity) hlimit
      _ = upper 0 (-1074) := by
        rw [upper, Nat.cast_zero, zero_add, one_div, pow_succ', mul_inv, zpow_neg, zpow_ofNat]

/-- The double of a decimal is the nearest one. -/
theorem nearest_ofDecimal (m : Nat) (e : Int) :
    (view (ofDecimal m e)).Nearest false (m * 10 ^ e) := by
  rw [ofDecimal]
  split
  · rename_i hm
    have hself := rounds_self 0 (-1074)
    rw [Nat.cast_zero, zero_mul] at hself
    rw [hm, Nat.cast_zero, zero_mul, view_zero]
    exact .finite canonical_zero hself
  · rename_i hm
    have hpos : 0 < m := Nat.pos_of_ne_zero hm
    obtain ⟨w, hw, hlow, hhigh⟩ := length_repr_bounds hpos
    have hlog : w ≤ m.log2 :=
      (Nat.le_log2 hm).mpr ((Nat.pow_le_pow_left (by norm_num) w).trans hlow)
    simp only [hw]
    split
    · rw [view_infinity]
      exact .infinite (upper_most_le hlow (by omega))
    · split
      · rw [view_zero]
        exact .finite canonical_zero (rounds_zero hhigh (by push_cast; omega))
      · refine nearest_ofScientific hpos ?_ (by omega) (by omega)
        by_cases he : e < 0
        · rw [if_pos (decide_eq_true he)]
          omega
        · rw [if_neg (by simpa using he)]
          omega

/-- Half way between two doubles, the even one is read. -/
example : view (ofDecimal (2 ^ 53 + 1) 0) = .finite false (2 ^ 52) 1 := by
  decide +kernel

end Double
end Formula
