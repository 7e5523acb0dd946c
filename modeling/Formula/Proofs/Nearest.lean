import Formula.Proofs.Packing

/-! The nearest double. Arithmetic cuts a result off behind the bits that a double has room for, and
keeps of the rest how it compares with one half; so rounding takes the nearest double, the even one
of two, and what is too great becomes infinite. -/
namespace Formula.Double

open Float.Model UnpackedFloat
open Shortest (Rounds lower upper reach two_zpow_pos upper_most_le_lower rounds_self)

variable {f : UnpackedFloat} {a : Accuracy} {em : ExtendedMantissa} {m n r : Nat} {e q : Int}
variable {u v : ℚ}

/-! ### Cutting off and rounding -/

/-- What the bit behind the point is worth. -/
def half (bit : Bool) : ℚ := if bit then 1 / 2 else 0

/-- A number is cut off behind the first bit of its fraction, and the sticky bit tells whether
anything was left of it. -/
structure Cuts (em : ExtendedMantissa) (u : ℚ) : Prop where
  low : em.mantissa + half em.roundBit ≤ u
  high : u < em.mantissa + half em.roundBit + 1 / 2
  sticky : em.stickyBit = false ↔ u = em.mantissa + half em.roundBit

@[simp] theorem half_false : half false = 0 := rfl

@[simp] theorem half_true : half true = 1 / 2 := rfl

theorem half_nonneg (bit : Bool) : 0 ≤ half bit := by
  cases bit <;> simp

theorem half_le (bit : Bool) : half bit ≤ 1 / 2 := by
  cases bit <;> simp

theorem cast_div_two (m : Nat) : ((m / 2 : Nat) : ℚ) + half (m % 2 != 0) = m / 2 := by
  have hm : (m : ℚ) = 2 * (m / 2 : Nat) + (m % 2 : Nat) := by
    exact_mod_cast (Nat.div_add_mod m 2).symm
  rcases Nat.mod_two_eq_zero_or_one m with hbit | hbit
  · simp [half, hbit] at hm ⊢
    linarith
  · simp [half, hbit] at hm ⊢
    linarith

theorem Cuts.shiftRightOne (h : Cuts em u) : Cuts em.shiftRightOne (u / 2) := by
  have hlow := h.low
  have hhigh := h.high
  have hsticky := h.sticky
  have hnonneg := half_nonneg em.roundBit
  have hle := half_le em.roundBit
  constructor
  · rw [ExtendedMantissa.shiftRightOne, cast_div_two]
    linarith
  · rw [ExtendedMantissa.shiftRightOne, cast_div_two]
    linarith
  · rw [ExtendedMantissa.shiftRightOne, cast_div_two, Bool.or_eq_false_iff, hsticky,
      div_left_inj' two_ne_zero]
    cases hbit : em.roundBit with
    | false => simp
    | true =>
      rw [hbit, half_true] at hlow
      exact iff_of_false (fun h => Bool.noConfusion h.1) (by linarith)

theorem Cuts.shiftRight (h : Cuts em u) (k : Nat) : Cuts (em >>> k) (u / 2 ^ k) := by
  induction k with
  | zero =>
    rw [pow_zero, div_one]
    exact h
  | succ k ih =>
    rw [pow_succ, ← div_div]
    exact ih.shiftRightOne

theorem mantissa_shiftRight (em : ExtendedMantissa) (k : Nat) :
    (em >>> k).mantissa = em.mantissa / 2 ^ k := by
  induction k with
  | zero => exact (Nat.div_one _).symm
  | succ k ih =>
    rw [pow_succ, ← Nat.div_div_eq_div_mul, ← ih]
    rfl

/-- A whole number nearest to `u`; the even one where two are. -/
structure Settles (r : Nat) (u : ℚ) : Prop where
  low : r - 1 / 2 ≤ u
  high : u ≤ r + 1 / 2
  within : r % 2 ≠ 0 → r - 1 / 2 < u ∧ u < r + 1 / 2

theorem Cuts.settles (h : Cuts em u) : Settles em.roundedMantissa u := by
  obtain ⟨m, bit, sticky⟩ := em
  obtain ⟨hlow, hhigh, hsticky⟩ := h
  cases bit with
  | false =>
    simp only [half, Bool.false_eq_true, if_false, add_zero] at hlow hhigh
    have hround : ExtendedMantissa.roundedMantissa ⟨m, false, sticky⟩ = m := by
      cases sticky <;> rfl
    rw [hround]
    exact ⟨by linarith, hhigh.le, fun _ => ⟨by linarith, hhigh⟩⟩
  | true =>
    simp only [half, if_true] at hlow hhigh hsticky
    cases sticky with
    | false =>
      -- half way between two whole numbers
      have hu : u = m + 1 / 2 := hsticky.mp rfl
      have hround : ExtendedMantissa.roundedMantissa ⟨m, true, false⟩ = m + m % 2 := rfl
      have heven : (m + m % 2) % 2 = 0 := by omega
      rw [hround]
      refine ⟨?_, ?_, fun hodd => absurd heven hodd⟩ <;>
        rcases Nat.mod_two_eq_zero_or_one m with hm | hm <;> rw [hm, hu] <;> push_cast <;> linarith
    | true =>
      have hne : u ≠ m + 1 / 2 := fun hu => Bool.noConfusion (hsticky.mpr hu)
      have hlt : (m : ℚ) + 1 / 2 < u := lt_of_le_of_ne hlow hne.symm
      have hround : ExtendedMantissa.roundedMantissa ⟨m, true, true⟩ = m + 1 := rfl
      rw [hround]
      refine ⟨?_, ?_, fun _ => ⟨?_, ?_⟩⟩ <;> push_cast <;> linarith

theorem mantissa_le_rounded (em : ExtendedMantissa) :
    em.mantissa ≤ em.roundedMantissa ∧ em.roundedMantissa ≤ em.mantissa + 1 := by
  obtain ⟨m, bit, sticky⟩ := em
  cases bit <;> cases sticky <;>
    simp [ExtendedMantissa.roundedMantissa, ExtendedMantissa.accuracy, Accuracy.roundToNearestEven]
  omega

theorem cuts_add {bit sticky : Bool} {x : ℚ} (hlow : half bit ≤ x) (hhigh : x < half bit + 1 / 2)
    (hs : sticky = false ↔ x = half bit) : Cuts ⟨m, bit, sticky⟩ (m + x) where
  low := add_le_add_right hlow _
  high := by
    rw [add_assoc]
    exact add_lt_add_right hhigh _
  sticky := hs.trans (add_right_inj _).symm

theorem cuts_exact (m : Nat) : Cuts (.ofMantissaAndAccuracy m .exact) m := by
  constructor <;> simp [ExtendedMantissa.ofMantissaAndAccuracy]

/-- The rest of a division says how a quotient was cut off. -/
theorem cuts_fraction (m : Nat) {d : Nat} (h : r < d) :
    Cuts (.ofMantissaAndAccuracy m (accuracyOfFraction r d)) (m + r / d) := by
  have hd : (0 : ℚ) < d := by exact_mod_cast (Nat.zero_le r).trans_lt h
  have hone : (r : ℚ) / d < 1 / 2 + 1 / 2 := by
    rw [add_halves]
    exact (div_lt_one hd).mpr (by exact_mod_cast h)
  have hlt : (r : ℚ) / d < 1 / 2 ↔ 2 * r < d := by
    rw [div_lt_div_iff₀ hd two_pos, one_mul, mul_comm]
    exact_mod_cast Iff.rfl
  have hgt : (1 : ℚ) / 2 < r / d ↔ d < 2 * r := by
    rw [div_lt_div_iff₀ two_pos hd, one_mul, mul_comm (r : ℚ)]
    exact_mod_cast Iff.rfl
  rw [accuracyOfFraction]
  by_cases hr : r = 0
  · rw [if_pos hr, hr, Nat.cast_zero, zero_div, add_zero]
    exact cuts_exact m
  · have hpos : (0 : ℚ) < r / d := div_pos (by exact_mod_cast Nat.pos_of_ne_zero hr) hd
    rw [if_neg hr]
    cases hc : compare (2 * r) d with
    | lt =>
      refine cuts_add hpos.le ?_ (iff_of_false Bool.noConfusion hpos.ne')
      rw [half_false, zero_add]
      exact hlt.mpr (Nat.compare_eq_lt.mp hc)
    | eq =>
      have heq := Nat.compare_eq_eq.mp hc
      have hhalf : (r : ℚ) / d = 1 / 2 :=
        le_antisymm (not_lt.mp fun h => (hgt.mp h).ne' heq) (not_lt.mp fun h => (hlt.mp h).ne heq)
      exact cuts_add hhalf.ge hone (iff_of_true rfl hhalf)
    | gt =>
      have hhalf := hgt.mpr (Nat.compare_eq_gt.mp hc)
      exact cuts_add hhalf.le hone (iff_of_false Bool.noConfusion hhalf.ne')

/-! ### Rounding to a format -/

theorem targetExponent_eq (m : Nat) (e : Int) :
    Format.binary64.targetExponent (totalExponent m e) = max (m.log2 + e - 52) (-1074) := by
  change max ((m.log2 : Int) + 1 + e - 53) (-1074) = _
  congr 1
  omega

/-- A number rounded to a format, but for the bound on its exponent. -/
inductive Rounded (v : ℚ) : UnpackedFloat → Prop
  | zero (h : Rounds 0 (-1074) v) : Rounded v (.zero .positive)
  | finite {m : Nat} {q : Int} {hm : 0 < m} (bits : m < 2 ^ 53) (least : -1074 ≤ q)
      (full : q = -1074 ∨ 2 ^ 52 ≤ m) (h : Rounds m q v) : Rounded v (.finite .positive m q hm)

/-- The first shift takes a significand to 53 bits, or to the least exponent. -/
theorem cuts_shiftToTargetExponent (hv : Cuts (.ofMantissaAndAccuracy m a) (v / 2 ^ e))
    (he : e ≤ max (m.log2 + e - 52) (-1074)) {q : Int} {em : ExtendedMantissa}
    (h : shiftToTargetExponent .binary64 m e a = (em, q)) :
    Cuts em (v / 2 ^ q) ∧ em.mantissa < 2 ^ 53 ∧ -1074 ≤ q ∧
      (q = -1074 ∨ 2 ^ 52 ≤ em.mantissa) := by
  simp only [shiftToTargetExponent, shiftToExponent, targetExponent_eq] at h
  generalize hk : (max ((m.log2 : Int) + e - 52) (-1074) - e).toNat = k at h
  obtain ⟨rfl, rfl⟩ := Prod.mk.inj h
  have hmantissa : (ExtendedMantissa.ofMantissaAndAccuracy m a).mantissa = m := by
    cases a with
    | exact => rfl
    | inexact o => cases o <;> rfl
  refine ⟨?_, ?_, by omega, ?_⟩
  · have hsplit : v / 2 ^ (e + k) = v / 2 ^ e / 2 ^ k := by
      rw [zpow_add₀ two_ne_zero, zpow_natCast, div_div]
    rw [hsplit]
    exact hv.shiftRight k
  · rw [mantissa_shiftRight, hmantissa, Nat.div_lt_iff_lt_mul (Nat.two_pow_pos k), ← Nat.pow_add]
    exact Nat.lt_log2_self.trans_le (Nat.pow_le_pow_right two_pos (by omega))
  · by_cases hq : e + k = -1074
    · exact .inl hq
    · have hm : m ≠ 0 := by
        rintro rfl
        rw [Nat.log2_zero] at he hk
        omega
      rw [mantissa_shiftRight, hmantissa, Nat.le_div_iff_mul_le (Nat.two_pow_pos k), ← Nat.pow_add]
      exact .inr ((Nat.pow_le_pow_right two_pos (by omega)).trans (Nat.log2_self_le hm))

theorem shiftToTargetExponent_of_lt (hr : r < 2 ^ 53) (hq : -1074 ≤ q) :
    shiftToTargetExponent .binary64 r q .exact = (⟨r, false, false⟩, q) := by
  have hlog : r.log2 ≤ 52 := by
    by_cases hzero : r = 0
    · simp [hzero]
    · exact Nat.le_of_lt_succ ((Nat.log2_lt hzero).mpr hr)
  have hk : (max ((r.log2 : Int) + q - 52) (-1074) - q).toNat = 0 := by omega
  simp only [shiftToTargetExponent, shiftToExponent, targetExponent_eq, hk]
  exact Prod.ext rfl (add_zero q)

/-- A significand that rounding has made too long is a power of two. -/
theorem shiftToTargetExponent_carry (hq : -1074 ≤ q) :
    shiftToTargetExponent .binary64 (2 ^ 53) q .exact = (⟨2 ^ 52, false, false⟩, q + 1) := by
  have hk : (max (((2 ^ 53 : Nat).log2 : Int) + q - 52) (-1074) - q).toNat = 1 := by
    rw [Nat.log2_two_pow]
    omega
  simp only [shiftToTargetExponent, shiftToExponent, targetExponent_eq, hk]
  rfl

theorem Settles.rounds (h : Settles r (v / 2 ^ q))
    (hlow : r = 2 ^ 52 → -1074 < q → 2 ^ 52 ≤ v / 2 ^ q) : Rounds r q v := by
  have hq := two_zpow_pos q
  have hv : v = v / 2 ^ q * 2 ^ q := (div_mul_cancel₀ v hq.ne').symm
  generalize v / 2 ^ q = u at h hlow hv
  subst hv
  constructor
  · refine mul_le_mul_of_nonneg_right ?_ hq.le
    rw [reach]
    split
    · rename_i hr
      have hu := hlow hr.1 hr.2
      rw [hr.1]
      push_cast
      linarith
    · exact h.low
  · exact mul_le_mul_of_nonneg_right h.high hq.le
  · intro hodd
    have hreach : reach r q = 1 / 2 := if_neg fun hr => hodd (by rw [hr.1]; rfl)
    rw [lower, hreach]
    exact (h.within hodd).imp (mul_lt_mul_of_pos_right · hq) (mul_lt_mul_of_pos_right · hq)

theorem Settles.rounds_carry (h : Settles (2 ^ 53) (v / 2 ^ q)) (hq : -1074 ≤ q) :
    Rounds (2 ^ 52) (q + 1) v := by
  have hpos := two_zpow_pos q
  have hlow := h.low
  have hhigh := h.high
  rw [le_div_iff₀ hpos] at hlow
  rw [div_le_iff₀ hpos] at hhigh
  push_cast at hlow hhigh
  constructor
  · rw [lower, reach, if_pos ⟨rfl, by omega⟩, zpow_add_one₀ two_ne_zero]
    push_cast
    linarith
  · rw [upper, zpow_add_one₀ two_ne_zero]
    push_cast
    linarith
  · exact fun hodd => absurd rfl hodd

/-- Rounding a number that was cut off early enough. -/
theorem rounded_roundWithAccuracy (hv : Cuts (.ofMantissaAndAccuracy m a) (v / 2 ^ e))
    (he : e ≤ max (m.log2 + e - 52) (-1074)) :
    Rounded v (roundWithAccuracy .binary64 .positive m e a) := by
  rw [roundWithAccuracy]
  cases hfirst : shiftToTargetExponent .binary64 m e a with
  | mk em q =>
    obtain ⟨hcuts, hbits, hleast, hfull⟩ := cuts_shiftToTargetExponent hv he hfirst
    have hsettles := hcuts.settles
    obtain ⟨hle, hsucc⟩ := mantissa_le_rounded em
    have hbelow : (em.mantissa : ℚ) ≤ v / 2 ^ q :=
      (le_add_of_nonneg_right (half_nonneg _)).trans hcuts.low
    dsimp only
    generalize em.roundedMantissa = r at hsettles hle hsucc ⊢
    rcases (by omega : r < 2 ^ 53 ∨ r = 2 ^ 53) with hr | rfl
    · have hrounds : Rounds r q v := hsettles.rounds fun _ hq => by
        have hlow : 2 ^ 52 ≤ em.mantissa := hfull.resolve_left hq.ne'
        exact le_trans (by exact_mod_cast hlow) hbelow
      rw [shiftToTargetExponent_of_lt hr hleast]
      split
      · rename_i hzero
        obtain rfl : r = 0 := hzero
        rw [hfull.resolve_right (by omega)] at hrounds
        exact .zero hrounds
      · exact .finite hr hleast (hfull.imp_right fun h => h.trans hle) hrounds
    · rw [shiftToTargetExponent_carry hleast]
      exact .finite (by norm_num) (by omega) (.inr le_rfl) (hsettles.rounds_carry hleast)

/-! ### The nearest double -/

/-- What the double stands for that is nearest to a number of size `v` with a given sign; of two as
near, the one with the even significand, as `Rounds.dist_le` says. From half way between the
greatest double and the next power of two on, that is infinity. -/
inductive View.Nearest (negative : Bool) (v : ℚ) : View → Prop
  | finite {m : Nat} {q : Int} (hc : Canonical m q) (hr : Rounds m q v) :
      Nearest negative v (.finite negative m q)
  | infinite (hv : upper (2 ^ 53 - 1) 971 ≤ v) : Nearest negative v (.infinite negative)

theorem View.Nearest.unique {negative : Bool} {w w' : View} (h : w.Nearest negative v)
    (h' : w'.Nearest negative v) : w = w' := by
  cases h with
  | finite hc hr =>
    cases h' with
    | finite hc' hr' =>
      obtain ⟨rfl, rfl⟩ := hr.unique hc hc' hr'
      rfl
    | infinite hv => exact absurd (hr.lt_upper_most hc) hv.not_gt
  | infinite hv =>
    cases h' with
    | finite hc hr => exact absurd (hr.lt_upper_most hc) hv.not_gt
    | infinite => rfl

theorem View.Nearest.eq_finite {negative : Bool} {w : View} (h : w.Nearest negative (m * 2 ^ q))
    (hc : Canonical m q) : w = .finite negative m q :=
  h.unique (.finite hc (rounds_self m q))

theorem Rounded.nearest (h : Rounded v f) : (view (.ofModel (.pack f))).Nearest false v := by
  cases h with
  | zero h =>
    rw [view_pack_zero]
    exact .finite canonical_zero h
  | @finite m q hm bits least full h =>
    by_cases hq : q ≤ 971
    · have hc : Canonical m q := ⟨bits, least, hq, full⟩
      rw [view_pack_finite .positive hm hc]
      exact .finite hc h
    · rw [view_pack_overflow .positive hm (not_le.mp hq)]
      have hlow : 2 ^ 52 ≤ m := full.resolve_left (by omega)
      exact .infinite ((upper_most_le_lower hlow (not_le.mp hq)).trans h.above)

theorem View.Nearest.neg {x : Float} (h : (view x).Nearest false v) :
    (view (-x)).Nearest true v := by
  rw [view_neg]
  cases hx : view x with
  | nan => rw [hx] at h; cases h
  | infinite =>
    rw [hx] at h
    cases h with
    | infinite hv => exact .infinite hv
  | finite =>
    rw [hx] at h
    cases h with
    | finite hc hr => exact .finite hc hr

theorem View.Nearest.withSign {x : Float} (h : (view x).Nearest false v) (negative : Bool) :
    (view (withSign negative x)).Nearest negative v := by
  cases negative with
  | false => exact h
  | true => exact h.neg

/-! ### Products and quotients -/

/-- A product of two numbers that are not cut off. -/
theorem rounded_mul {hm : 0 < m} {hn : 0 < n} (h : 2 ^ 52 ≤ m * n) (e p : Int) :
    Rounded (m * 2 ^ e * (n * 2 ^ p))
      (UnpackedFloat.mul .binary64 (.finite .positive m e hm) (.finite .positive n p hn)) := by
  have hvalue : (m * 2 ^ e * (n * 2 ^ p) : ℚ) / 2 ^ (e + p) = (m * n : Nat) := by
    rw [div_eq_iff (two_zpow_pos _).ne', zpow_add₀ two_ne_zero]
    push_cast
    ring
  have hlog : 52 ≤ (m * n).log2 := (Nat.le_log2 (by omega)).mpr h
  refine rounded_roundWithAccuracy ?_ (by omega)
  rw [hvalue]
  exact cuts_exact _

/-- Division shifts the dividend until the quotient has enough bits. -/
theorem two_pow_le_quotient {k : Nat} (hm : 0 < m) (hn : 0 < n)
    (hk : n.log2 + 53 ≤ m.log2 + k) : 2 ^ 52 ≤ m * 2 ^ k / n := by
  rw [Nat.le_div_iff_mul_le hn]
  calc 2 ^ 52 * n ≤ 2 ^ 52 * 2 ^ (n.log2 + 1) := Nat.mul_le_mul_left _ Nat.lt_log2_self.le
    _ = 2 ^ (n.log2 + 53) := by rw [← Nat.pow_add]; congr 1; omega
    _ ≤ 2 ^ (m.log2 + k) := Nat.pow_le_pow_right two_pos hk
    _ = 2 ^ m.log2 * 2 ^ k := Nat.pow_add ..
    _ ≤ m * 2 ^ k := Nat.mul_le_mul_right _ (Nat.log2_self_le hm.ne')

theorem rounded_div {hm : 0 < m} {hn : 0 < n} (e p : Int) :
    Rounded (m * 2 ^ e / (n * 2 ^ p))
      (UnpackedFloat.div .binary64 (.finite .positive m e hm) (.finite .positive n p hn)) := by
  have htarget : Format.binary64.targetExponent (totalExponent m e - totalExponent n p) =
      max (m.log2 + e - (n.log2 + p) - 53) (-1074) := by
    change max ((m.log2 : Int) + 1 + e - (n.log2 + 1 + p) - 53) (-1074) = _
    congr 1
    omega
  simp only [UnpackedFloat.div, divCore, htarget, Nat.shiftLeft_eq]
  generalize ht : min (e - p) (max ((m.log2 : Int) + e - (n.log2 + p) - 53) (-1074)) = t
  generalize hk : (e - p - t).toNat = k
  have hvalue : (m * 2 ^ e / (n * 2 ^ p) : ℚ) / 2 ^ t =
      (m * 2 ^ k / n : Nat) + (m * 2 ^ k % n : Nat) / n := by
    have hn' : (n : ℚ) ≠ 0 := by exact_mod_cast hn.ne'
    have hsum : (n : ℚ) * (m * 2 ^ k / n : Nat) + (m * 2 ^ k % n : Nat) = m * 2 ^ k := by
      exact_mod_cast Nat.div_add_mod (m * 2 ^ k) n
    have he : e = p + t + k := by omega
    have hpow : (2 : ℚ) ^ e = 2 ^ p * 2 ^ t * 2 ^ k := by
      rw [he, zpow_add₀ two_ne_zero, zpow_add₀ two_ne_zero, zpow_natCast]
    have hp := (two_zpow_pos p).ne'
    have ht := (two_zpow_pos t).ne'
    rw [hpow]
    field_simp
    linarith
  refine rounded_roundWithAccuracy ?_ ?_
  · rw [hvalue]
    exact cuts_fraction _ (Nat.mod_lt _ hn)
  · by_cases hleast : t ≤ -1074
    · omega
    · have hquotient := two_pow_le_quotient (k := k) hm hn (by omega)
      have hlog : 52 ≤ (m * 2 ^ k / n).log2 := (Nat.le_log2 (by omega)).mpr hquotient
      omega

end Formula.Double
