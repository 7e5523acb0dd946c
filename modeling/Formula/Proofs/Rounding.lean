import Formula.Number.Shortest
import Mathlib

/-! The numbers that round to a double. They are an interval around it, which reaches half way to
its neighbours; so no number rounds to two doubles, and the digits that are searched for are always
found, for a grid of seventeen digits has a point in every such interval. -/
namespace Formula

/-- Significand and exponent of a finite double: 53 bits, and no fewer unless the exponent is the
least one. -/
structure Double.Canonical (m : Nat) (q : Int) : Prop where
  bits : m < 2 ^ 53
  least : -1074 ≤ q
  most : q ≤ 971
  full : q = -1074 ∨ 2 ^ 52 ≤ m

theorem Double.canonical_of_view {x : Float} {negative : Bool} {m : Nat} {q : Int}
    (h : view x = .finite negative m q) : Canonical m q := by
  simp only [view, Nat.shiftRight_eq_div_pow, Nat.shiftLeft_eq, Nat.one_mul] at h
  split at h
  · split at h <;> cases h
  · split at h
    · cases h
      constructor <;> omega
    · cases h
      constructor <;> omega

theorem Double.canonical_zero : Canonical 0 (-1074) := ⟨by norm_num, le_rfl, by norm_num, .inl rfl⟩

theorem Double.Canonical.eq_least {q : Int} (h : Canonical 0 q) : q = -1074 :=
  h.full.resolve_right (by norm_num)

namespace Shortest

open Double (Canonical)

variable {m m' s : Nat} {q q' k : Int} {v : ℚ}

/-- How far down the interval of a double reaches, in units of its last place. -/
def reach (m : Nat) (q : Int) : ℚ := if m = 2 ^ 52 ∧ -1074 < q then 1 / 4 else 1 / 2

def lower (m : Nat) (q : Int) : ℚ := (m - reach m q) * 2 ^ q

def upper (m : Nat) (q : Int) : ℚ := (m + 1 / 2) * 2 ^ q

/-- A number rounds to a double: it lies in the interval, and between its ends if the significand
is odd. -/
structure Rounds (m : Nat) (q : Int) (v : ℚ) : Prop where
  above : lower m q ≤ v
  below : v ≤ upper m q
  within : m % 2 ≠ 0 → lower m q < v ∧ v < upper m q

theorem reach_pos (m : Nat) (q : Int) : 0 < reach m q := by
  unfold reach
  split <;> norm_num

theorem reach_le (m : Nat) (q : Int) : reach m q ≤ 1 / 2 := by
  unfold reach
  split <;> norm_num

theorem two_zpow_pos (q : Int) : (0 : ℚ) < 2 ^ q := zpow_pos two_pos q

theorem Rounds.pos (hm : 0 < m) (h : Rounds m q v) : 0 < v := by
  have hone : (1 : ℚ) ≤ m := by exact_mod_cast hm
  refine lt_of_lt_of_le (mul_pos ?_ (two_zpow_pos q)) h.above
  linarith [reach_le m q]

/-! ### No number rounds to two doubles -/

/-- A double comes before another: its exponent is smaller, or else its significand. -/
def Before (m : Nat) (q : Int) (m' : Nat) (q' : Int) : Prop := q < q' ∨ q = q' ∧ m < m'

theorem before_or_eq_or_before (m m' : Nat) (q q' : Int) :
    Before m q m' q' ∨ (m = m' ∧ q = q') ∨ Before m' q' m q := by
  unfold Before
  omega

/-- The next double is one unit in the last place away, and more if both significands are even. -/
theorem Before.next_le (h : Before m q m' q') (hc : Canonical m q) (hc' : Canonical m' q') :
    ((m : ℚ) + 1) * 2 ^ q ≤ m' * 2 ^ q' ∧
      (m % 2 = 0 → m' % 2 = 0 → ((m : ℚ) + 1) * 2 ^ q < m' * 2 ^ q') := by
  have hq := two_zpow_pos q
  have hbits := hc.bits
  have hleast := hc.least
  rcases h with hlt | ⟨rfl, hm⟩
  · have hfull : (2 : ℚ) ^ 52 ≤ m' := by exact_mod_cast hc'.full.resolve_left (by omega)
    have hpow : (2 : ℚ) ^ q * 2 ≤ 2 ^ q' := by
      rw [← zpow_add_one₀ two_ne_zero]
      exact zpow_le_zpow_right₀ one_le_two hlt
    have hnext : (2 : ℚ) ^ 53 * 2 ^ q ≤ m' * 2 ^ q' :=
      calc (2 : ℚ) ^ 53 * 2 ^ q = (2 : ℚ) ^ 52 * (2 ^ q * 2) := by ring
        _ ≤ (m' : ℚ) * 2 ^ q' := mul_le_mul hfull hpow (by positivity) (by positivity)
    constructor
    · have hle : (m : ℚ) + 1 ≤ 2 ^ 53 := by exact_mod_cast hbits
      exact (mul_le_mul_of_nonneg_right hle hq.le).trans hnext
    · intro heven _
      have hlt : (m : ℚ) + 1 < 2 ^ 53 := by exact_mod_cast (by omega : m + 1 < 2 ^ 53)
      exact (mul_lt_mul_of_pos_right hlt hq).trans_le hnext
  · constructor
    · have hle : (m : ℚ) + 1 ≤ m' := by exact_mod_cast hm
      exact mul_le_mul_of_nonneg_right hle hq.le
    · intro heven heven'
      have hlt : (m : ℚ) + 1 < m' := by exact_mod_cast (by omega : m + 1 < m')
      exact mul_lt_mul_of_pos_right hlt hq

/-- The double before is twice as far away as the interval reaches. -/
theorem Before.le_previous (h : Before m' q' m q) (hc : Canonical m q) (hc' : Canonical m' q') :
    (m' : ℚ) * 2 ^ q' ≤ (m - 2 * reach m q) * 2 ^ q := by
  have hq := two_zpow_pos q
  rcases h with hlt | ⟨rfl, hm⟩
  · have hleast := hc'.least
    have hbits : (m' : ℚ) ≤ 2 ^ 53 - 1 := by
      have hm' : (m' : ℚ) + 1 ≤ 2 ^ 53 := by exact_mod_cast hc'.bits
      linarith
    have hpow : (2 : ℚ) ^ q' ≤ 2 ^ q / 2 := by
      rw [le_div_iff₀ two_pos, ← zpow_add_one₀ two_ne_zero]
      exact zpow_le_zpow_right₀ one_le_two hlt
    have hfull : 2 ^ 52 ≤ m := hc.full.resolve_left (by omega)
    -- the least significand with this exponent reaches down a quarter only
    have hlow : (2 : ℚ) ^ 52 - 1 / 2 ≤ m - 2 * reach m q := by
      by_cases hm : m = 2 ^ 52
      · rw [reach, if_pos ⟨hm, by omega⟩, hm]
        norm_num
      · have hlt' : (2 : ℚ) ^ 52 + 1 ≤ m := by exact_mod_cast (by omega : 2 ^ 52 + 1 ≤ m)
        linarith [reach_le m q]
    calc (m' : ℚ) * 2 ^ q' ≤ (2 ^ 53 - 1) * (2 ^ q / 2) :=
          mul_le_mul hbits hpow (two_zpow_pos q').le (by norm_num)
      _ = (2 ^ 52 - 1 / 2) * 2 ^ q := by ring
      _ ≤ (m - 2 * reach m q) * 2 ^ q := mul_le_mul_of_nonneg_right hlow hq.le
  · have hreach : reach m q' = 1 / 2 := if_neg fun h => by
      rcases hc'.full with hleast | hfull <;> omega
    have hle : (m' : ℚ) + 1 ≤ m := by exact_mod_cast hm
    rw [hreach]
    exact mul_le_mul_of_nonneg_right (by linarith) hq.le

/-- Of two doubles, the first ends where the other begins, or before. -/
theorem Before.upper_le_lower (h : Before m q m' q') (hc : Canonical m q)
    (hc' : Canonical m' q') :
    upper m q ≤ lower m' q' ∧ (m % 2 = 0 → m' % 2 = 0 → upper m q < lower m' q') := by
  have hprevious := h.le_previous hc' hc
  obtain ⟨hle, hlt⟩ := h.next_le hc hc'
  rw [upper, lower]
  constructor
  · linarith
  · intro heven heven'
    linarith [hlt heven heven']

/-- Where one interval ends no later than another begins, nothing is in both. -/
theorem Rounds.apart (h : Before m q m' q') (hc : Canonical m q) (hc' : Canonical m' q')
    (hv : Rounds m q v) : ¬ Rounds m' q' v := by
  intro hv'
  obtain ⟨hle, hlt⟩ := h.upper_le_lower hc hc'
  have hbelow := hv.below
  have habove := hv'.above
  by_cases hm : m % 2 = 0
  · by_cases hm' : m' % 2 = 0
    · linarith [hlt hm hm']
    · linarith [(hv'.within hm').1]
  · linarith [(hv.within hm).2]

/-- The numbers that round to a double tell which one it is. -/
theorem Rounds.unique (hc : Canonical m q) (hc' : Canonical m' q') (h : Rounds m q v)
    (h' : Rounds m' q' v) : m = m' ∧ q = q' := by
  rcases before_or_eq_or_before m m' q q' with hb | heq | hb
  · exact absurd h' (h.apart hb hc hc')
  · exact heq
  · exact absurd h (h'.apart hb hc' hc)

/-- No double is nearer to a number than the one that it rounds to, and none is as near unless the
significand of that is even. -/
theorem Rounds.dist_le (h : Rounds m q v) (hc : Canonical m q) (hc' : Canonical m' q') :
    |v - m * 2 ^ q| ≤ |v - m' * 2 ^ q'| ∧
      (m % 2 ≠ 0 → |v - m * 2 ^ q| = |v - m' * 2 ^ q'| → m = m' ∧ q = q') := by
  have hlow : (m - reach m q) * 2 ^ q ≤ v := h.above
  have hhigh : v ≤ (m + 1 / 2) * 2 ^ q := h.below
  have hwithin : m % 2 ≠ 0 → (m - reach m q) * 2 ^ q < v ∧ v < (m + 1 / 2) * 2 ^ q := h.within
  have hreach := mul_pos (reach_pos m q) (two_zpow_pos q)
  have hq := two_zpow_pos q
  rcases before_or_eq_or_before m m' q q' with hb | heq | hb
  · have hnext := (hb.next_le hc hc').1
    rw [abs_sub_comm v (m' * 2 ^ q'), abs_of_nonneg (by linarith : 0 ≤ m' * 2 ^ q' - v)]
    refine ⟨abs_le.mpr ⟨by linarith, by linarith⟩, fun hodd htie => absurd htie (ne_of_lt ?_)⟩
    obtain ⟨-, hlt⟩ := hwithin hodd
    exact abs_lt.mpr ⟨by linarith, by linarith⟩
  · obtain ⟨rfl, rfl⟩ := heq
    exact ⟨le_rfl, fun _ _ => ⟨rfl, rfl⟩⟩
  · have hprevious := hb.le_previous hc hc'
    rw [abs_of_nonneg (by linarith : 0 ≤ v - m' * 2 ^ q')]
    refine ⟨abs_le.mpr ⟨by linarith, by linarith⟩, fun hodd htie => absurd htie (ne_of_lt ?_)⟩
    obtain ⟨hlt, -⟩ := hwithin hodd
    exact abs_lt.mpr ⟨by linarith, by linarith⟩

/-- A double rounds to itself. -/
theorem rounds_self (m : Nat) (q : Int) : Rounds m q (m * 2 ^ q) := by
  have hq := two_zpow_pos q
  have hreach := reach_pos m q
  have hlow : lower m q < m * 2 ^ q := mul_lt_mul_of_pos_right (by linarith) hq
  have hhigh : m * 2 ^ q < upper m q := mul_lt_mul_of_pos_right (by linarith) hq
  exact ⟨hlow.le, hhigh.le, fun _ => ⟨hlow, hhigh⟩⟩

/-! ### Where the doubles end -/

theorem upper_most : upper (2 ^ 53 - 1) 971 = (2 ^ 53 - 1 / 2) * 2 ^ (971 : Int) := by
  rw [upper]
  norm_num

/-- What rounds to a finite double is less than half way from the greatest of them to the next power
of two. -/
theorem Rounds.lt_upper_most (hc : Canonical m q) (h : Rounds m q v) :
    v < upper (2 ^ 53 - 1) 971 := by
  have hle : (m : ℚ) + 1 / 2 ≤ 2 ^ 53 - 1 / 2 := by
    have hm : (m : ℚ) + 1 ≤ 2 ^ 53 := by exact_mod_cast hc.bits
    linarith
  have hbits := hc.bits
  rw [upper_most]
  rcases lt_or_eq_of_le hc.most with hq | rfl
  · calc v ≤ (m + 1 / 2) * 2 ^ q := h.below
      _ ≤ (2 ^ 53 - 1 / 2) * 2 ^ q := mul_le_mul_of_nonneg_right hle (two_zpow_pos q).le
      _ < (2 ^ 53 - 1 / 2) * 2 ^ (971 : Int) :=
        mul_lt_mul_of_pos_left (zpow_lt_zpow_right₀ one_lt_two hq) (by norm_num)
  · by_cases hm : m % 2 = 0
    · have hlt : (m : ℚ) + 1 < 2 ^ 53 := by exact_mod_cast (by omega : m + 1 < 2 ^ 53)
      exact h.below.trans_lt (mul_lt_mul_of_pos_right (by linarith) (two_zpow_pos _))
    · exact (h.within hm).2.trans_le (mul_le_mul_of_nonneg_right hle (two_zpow_pos _).le)

/-- A significand with a greater exponent than a double has is beyond that. -/
theorem upper_most_le_lower (hm : 2 ^ 52 ≤ m) (hq : 971 < q) :
    upper (2 ^ 53 - 1) 971 ≤ lower m q := by
  have hlow : (2 : ℚ) ^ 52 - 1 / 4 ≤ m - reach m q := by
    by_cases hm' : m = 2 ^ 52
    · rw [reach, if_pos ⟨hm', by omega⟩, hm']
      norm_num
    · have hlt : (2 : ℚ) ^ 52 + 1 ≤ m := by exact_mod_cast (by omega : 2 ^ 52 + 1 ≤ m)
      linarith [reach_le m q]
  have hpow : (2 : ℚ) ^ (971 : Int) * 2 ≤ 2 ^ q := by
    rw [← zpow_add_one₀ two_ne_zero]
    exact zpow_le_zpow_right₀ one_le_two hq
  rw [upper_most, lower]
  calc ((2 : ℚ) ^ 53 - 1 / 2) * 2 ^ (971 : Int)
      = (2 ^ 52 - 1 / 4) * (2 ^ (971 : Int) * 2) := by ring
    _ ≤ (2 ^ 52 - 1 / 4) * 2 ^ q := mul_le_mul_of_nonneg_left hpow (by norm_num)
    _ ≤ (m - reach m q) * 2 ^ q := mul_le_mul_of_nonneg_right hlow (two_zpow_pos q).le

/-! ### Over a common denominator -/

/-- A power is its positive part over its negative part. -/
theorem pow_toNat {b : ℚ} (hb : b ≠ 0) (n : Int) : b ^ n.toNat = b ^ n * b ^ (-n).toNat := by
  rw [← zpow_natCast, ← zpow_natCast, ← zpow_add₀ hb]
  congr 1
  omega

theorem power_pos (k : Int) : (0 : ℚ) < power k := by
  exact_mod_cast Nat.pow_pos (by norm_num)

theorem power_eq (k : Int) : (power k : ℚ) = 10 ^ k * power (-k) := by
  have h := pow_toNat (b := 10) (by norm_num) k
  simpa only [power, Nat.pow_eq, Nat.cast_pow, Nat.cast_ofNat] using h

theorem unit_pos (m : Nat) (q : Int) : (0 : ℚ) < (interval m q).unit := by
  simp [interval, Nat.shiftLeft_eq]

theorem cast_shiftLeft (n m : Nat) (q : Int) :
    ((n <<< (q - 2).toNat : Nat) : ℚ) = n / 4 * 2 ^ q * (interval m q).unit := by
  have h := pow_toNat (two_ne_zero : (2 : ℚ) ≠ 0) (q - 2)
  rw [neg_sub, zpow_sub₀ two_ne_zero] at h
  simp only [interval, Nat.shiftLeft_eq, Nat.one_mul, Nat.cast_mul, Nat.cast_pow, Nat.cast_ofNat, h]
  ring

theorem cast_middle (m : Nat) (q : Int) :
    ((interval m q).middle : ℚ) = m * 2 ^ q * (interval m q).unit := by
  refine (cast_shiftLeft (4 * m) m q).trans ?_
  push_cast
  ring

theorem cast_low (hm : 0 < m) (q : Int) :
    ((interval m q).low : ℚ) = lower m q * (interval m q).unit := by
  have hgap : ((if m = 1 <<< 52 ∧ -1074 < q then 1 else 2 : Nat) : ℚ) = 4 * reach m q := by
    rw [reach, Nat.one_shiftLeft]
    split <;> norm_num
  refine (cast_shiftLeft _ m q).trans ?_
  rw [lower, Nat.cast_sub (by split <;> omega), hgap]
  push_cast
  ring

theorem cast_high (m : Nat) (q : Int) :
    ((interval m q).high : ℚ) = upper m q * (interval m q).unit := by
  refine (cast_shiftLeft (4 * m + 2) m q).trans ?_
  rw [upper]
  push_cast
  ring

/-- What the ends and the grid points are multiplied by before they are compared. -/
def scale (m : Nat) (q k : Int) : ℚ := power (-k) * (interval m q).unit

theorem scale_pos (m : Nat) (q k : Int) : 0 < scale m q k := mul_pos (power_pos _) (unit_pos m q)

theorem cast_step (m : Nat) (q k : Int) :
    ((power k * (interval m q).unit : Nat) : ℚ) = 10 ^ k * scale m q k := by
  rw [Nat.cast_mul, power_eq, scale, mul_assoc]

/-- The test for a point of a decimal grid is whether it rounds to the double. -/
theorem holds_iff (hm : 0 < m) :
    (interval m q).holds k s = true ↔ Rounds m q (s * 10 ^ k) := by
  have hvalue : ((s * power k * (interval m q).unit : Nat) : ℚ) = s * 10 ^ k * scale m q k := by
    rw [Nat.mul_assoc, Nat.cast_mul, cast_step, mul_assoc]
  have hlow : (((interval m q).low * power (-k) : Nat) : ℚ) = lower m q * scale m q k := by
    rw [Nat.cast_mul, cast_low hm, scale]
    ring
  have hhigh : (((interval m q).high * power (-k) : Nat) : ℚ) = upper m q * scale m q k := by
    rw [Nat.cast_mul, cast_high, scale]
    ring
  simp only [Interval.holds, ← Nat.cast_le (α := ℚ), ← Nat.cast_lt (α := ℚ), hvalue, hlow, hhigh,
    mul_le_mul_iff_left₀ (scale_pos m q k), mul_lt_mul_iff_left₀ (scale_pos m q k)]
  by_cases heven : m % 2 = 0
  · simp only [interval, heven, beq_self_eq_true, if_true, decide_eq_true_eq]
    exact ⟨fun h => ⟨h.1, h.2, fun hodd => absurd heven hodd⟩, fun h => ⟨h.above, h.below⟩⟩
  · simp only [interval, beq_iff_eq, heven, if_false, decide_eq_true_eq]
    exact ⟨fun h => ⟨h.1.le, h.2.le, fun _ => h⟩, fun h => h.within heven⟩

/-! ### The digits are always found -/

/-- The last point of a decimal grid that is not behind the middle. -/
def Interval.last (i : Interval) (k : Int) : Nat := i.middle * power (-k) / (power k * i.unit)

theorem holds_of_onGrid? {i : Interval} {tieToEven : Bool} (h : i.onGrid? tieToEven k = some s) :
    i.holds k s = true := by
  simp only [Interval.onGrid?] at h
  split at h
  · cases h
    assumption
  · cases h
    assumption
  · cases h
  · split at h
    · cases h
      assumption
    · cases h
      assumption
    · split at h <;> cases h <;> assumption

/-- The search on a grid finds one of the two points around the middle if one is in the interval. -/
theorem onGrid?_isSome {i : Interval} (tieToEven : Bool)
    (h : i.holds k (i.last k) = true ∨ i.holds k (i.last k + 1) = true) :
    (i.onGrid? tieToEven k).isSome = true := by
  unfold Interval.last at h
  simp only [Interval.onGrid?]
  split
  · rfl
  · rfl
  · simp_all
  · split <;> rfl

theorem cast_middle_power (m : Nat) (q k : Int) :
    (((interval m q).middle * power (-k) : Nat) : ℚ) = m * 2 ^ q * scale m q k := by
  rw [Nat.cast_mul, cast_middle, scale]
  ring

theorem last_le (m : Nat) (q k : Int) : ((interval m q).last k : ℚ) * 10 ^ k ≤ m * 2 ^ q := by
  have h := Nat.div_mul_le_self ((interval m q).middle * power (-k))
    (power k * (interval m q).unit)
  rw [← Nat.cast_le (α := ℚ), Nat.cast_mul, cast_step, cast_middle_power, ← mul_assoc] at h
  exact le_of_mul_le_mul_right h (scale_pos m q k)

theorem lt_last_add_one (m : Nat) (q k : Int) :
    m * 2 ^ q < (((interval m q).last k : ℚ) + 1) * 10 ^ k := by
  have hpos : 0 < power k * (interval m q).unit := by
    rw [← Nat.cast_pos (α := ℚ), Nat.cast_mul]
    exact mul_pos (power_pos k) (unit_pos m q)
  have h := Nat.lt_mul_of_div_lt (Nat.lt_succ_self ((interval m q).last k)) hpos
  rw [← Nat.cast_lt (α := ℚ), cast_middle_power, Nat.cast_mul, cast_step] at h
  refine lt_of_mul_lt_mul_right (lt_of_lt_of_eq h ?_) (scale_pos m q k).le
  push_cast
  ring

/-- A grid whose step is shorter than the interval has a point in it. -/
theorem holds_of_step (hm : 0 < m) (h : (10 : ℚ) ^ k < (reach m q + 1 / 2) * 2 ^ q) :
    (interval m q).holds k ((interval m q).last k) = true ∨
      (interval m q).holds k ((interval m q).last k + 1) = true := by
  have hle := last_le m q k
  have hlt := lt_last_add_one m q k
  have hq := two_zpow_pos q
  have hreach := mul_pos (reach_pos m q) hq
  rw [holds_iff hm, holds_iff hm]
  by_cases hnear : lower m q < (interval m q).last k * 10 ^ k
  · refine .inl ⟨hnear.le, ?_, fun _ => ⟨hnear, ?_⟩⟩
    · rw [upper]
      linarith
    · rw [upper]
      linarith
  · have hlower : lower m q < ((interval m q).last k + 1 : Nat) * 10 ^ k := by
      push_cast
      rw [lower]
      linarith
    have hupper : ((interval m q).last k + 1 : Nat) * 10 ^ k < upper m q := by
      push_cast
      rw [upper]
      rw [lower] at hnear
      linarith
    exact .inr ⟨hlower.le, hupper.le, fun _ => ⟨hlower, hupper⟩⟩

/-- A power of ten is compared with a power of two through one pair of them. -/
theorem ten_zpow_le_of {a b : Nat} {e g : Int} (hb : b ≠ 0)
    (h : ((10 : ℚ) ^ a) ^ e ≤ (2 ^ b) ^ e) (hg : g * b ≤ a * e) : (10 : ℚ) ^ g ≤ 2 ^ e := by
  rw [← pow_le_pow_iff_left₀ (zpow_pos (by norm_num) g).le (two_zpow_pos e).le hb]
  calc ((10 : ℚ) ^ g) ^ b = 10 ^ (g * b) := by rw [← zpow_natCast, ← zpow_mul]
    _ ≤ 10 ^ (a * e) := zpow_le_zpow_right₀ (by norm_num) hg
    _ = (10 ^ a) ^ e := by rw [zpow_mul, zpow_natCast]
    _ ≤ (2 ^ b) ^ e := h
    _ = (2 ^ e) ^ b := by rw [← zpow_natCast, ← zpow_natCast, zpow_comm]

/-- The estimate of the logarithm of a power of two is off by less than two. -/
theorem ten_zpow_le {e : Int} (hlow : -1076 ≤ e) (hhigh : e ≤ 1023) :
    (10 : ℚ) ^ (e * 30103 / 100000 - 2) ≤ 2 ^ e := by
  rcases le_or_gt 0 e with he | he
  · exact ten_zpow_le_of (a := 3) (b := 10) (by norm_num)
      (zpow_le_zpow_left₀ he (by norm_num) (by norm_num)) (by omega)
  · refine ten_zpow_le_of (a := 28) (b := 93) (by norm_num) ?_ (by omega)
    rw [← neg_neg e, zpow_neg, zpow_neg _ (-e)]
    exact inv_anti₀ (zpow_pos (by norm_num) _)
      (zpow_le_zpow_left₀ (by omega) (by norm_num) (by norm_num))

/-- The logarithms of middle and denominator tell the size of the double. -/
theorem two_zpow_log2 (hm : 0 < m) (hc : Canonical m q) :
    ∃ e : Int, ((interval m q).middle.log2 : Int) - (interval m q).unit.log2 = e ∧
      -1076 ≤ e ∧ e ≤ 1023 ∧ (2 : ℚ) ^ e ≤ m * 2 ^ q := by
  have hunit : (interval m q).unit = 2 ^ (2 - q).toNat := Nat.one_shiftLeft _
  have hmiddle : (interval m q).middle ≠ 0 := by
    simp only [interval, Nat.shiftLeft_eq]
    positivity
  have hle : (2 : ℚ) ^ (((interval m q).middle.log2 : Int) - (2 - q).toNat) ≤ m * 2 ^ q := by
    have hlog := Nat.log2_self_le hmiddle
    rw [← Nat.cast_le (α := ℚ), cast_middle, hunit] at hlog
    push_cast at hlog
    rwa [zpow_sub₀ two_ne_zero, zpow_natCast, zpow_natCast, div_le_iff₀ (by positivity)]
  have hlt : (m : ℚ) * 2 ^ q < 2 ^ (1024 : Int) := by
    have hbits : (m : ℚ) < 2 ^ 53 := by exact_mod_cast hc.bits
    calc (m : ℚ) * 2 ^ q < 2 ^ 53 * 2 ^ q := mul_lt_mul_of_pos_right hbits (two_zpow_pos q)
      _ ≤ 2 ^ 53 * 2 ^ (971 : Int) :=
        mul_le_mul_of_nonneg_left (zpow_le_zpow_right₀ one_le_two hc.most) (by norm_num)
      _ = 2 ^ (1024 : Int) := by
        rw [← zpow_natCast, ← zpow_add₀ two_ne_zero]
        rfl
  refine ⟨_, by rw [hunit, Nat.log2_two_pow], ?_, ?_, hle⟩
  · have := hc.least
    omega
  · have := (zpow_lt_zpow_iff_right₀ one_lt_two).mp (hle.trans_lt hlt)
    omega

/-- Of four exponents in a row, the first that is found or else the last: unless it is the least,
the one before it was not found. -/
theorem find?_getD_eq (p : Int → Bool) (g : Int) :
    ∃ n, ([g - 1, g, g + 1].find? p).getD (g + 2) = n ∧ (n = g - 1 ∨ p (n - 1) = false) := by
  simp only [List.find?_cons, List.find?_nil]
  cases hfirst : p (g - 1) with
  | true => exact ⟨_, rfl, .inl rfl⟩
  | false =>
    cases hsecond : p g with
    | true => exact ⟨_, rfl, .inr hfirst⟩
    | false =>
      cases hthird : p (g + 1) with
      | true => exact ⟨_, rfl, .inr (by rwa [Option.getD_some, add_sub_cancel_right])⟩
      | false => exact ⟨_, rfl, .inr (by rwa [Option.getD_none, show g + 2 - 1 = g + 1 by omega])⟩

/-- The first power of ten above a double is less than one digit off. -/
theorem magnitude_le (hm : 0 < m) (hc : Canonical m q) :
    (10 : ℚ) ^ ((interval m q).magnitude - 1) ≤ m * 2 ^ q := by
  obtain ⟨e, he, hlow, hhigh, hle⟩ := two_zpow_log2 hm hc
  obtain ⟨p, hp, hbelow⟩ := find?_getD_eq (fun p => decide
    ((interval m q).middle * power (-p) < (interval m q).unit * power p)) (e * 30103 / 100000)
  simp only [Interval.magnitude, he, hp]
  rcases hbelow with rfl | hnot
  · rw [sub_sub]
    exact (ten_zpow_le hlow hhigh).trans hle
  · rw [decide_eq_false_iff_not, not_lt, ← Nat.cast_le (α := ℚ), cast_middle_power,
      mul_comm (interval m q).unit, cast_step] at hnot
    exact le_of_mul_le_mul_right hnot (scale_pos m q _)

/-- The number that a decimal is. -/
def Decimal.value (d : Decimal) : ℚ := d.coefficient * 10 ^ d.exponent

theorem value_dropZeros (fuel : Nat) (d : Decimal) : (dropZeros fuel d).value = d.value := by
  induction fuel generalizing d with
  | zero => rfl
  | succ fuel ih =>
    rw [dropZeros]
    split
    · rename_i h
      have hten : ((d.coefficient / 10 : Nat) : ℚ) * 10 = d.coefficient := by
        exact_mod_cast Nat.div_mul_cancel (Nat.dvd_of_mod_eq_zero h.2)
      rw [ih, Decimal.value, Decimal.value, zpow_add_one₀ (by norm_num), ← hten]
      ring
    · rfl

/-- Seventeen digits are fine enough for every double. -/
theorem ten_zpow_lt (hm : 0 < m) (hc : Canonical m q) :
    (10 : ℚ) ^ ((interval m q).magnitude - 17) < (reach m q + 1 / 2) * 2 ^ q := by
  have hq := two_zpow_pos q
  have hsize : (10 : ℚ) ^ ((interval m q).magnitude - 17) * 10 ^ 16 ≤ m * 2 ^ q := by
    refine le_of_eq_of_le ?_ (magnitude_le hm hc)
    rw [← zpow_natCast, ← zpow_add₀ (by norm_num)]
    congr 1
    push_cast
    omega
  have hbits : (m : ℚ) < 10 ^ 16 * (reach m q + 1 / 2) := by
    rw [reach]
    split
    · rename_i h
      rw [h.1]
      norm_num
    · refine lt_trans (b := (2 : ℚ) ^ 53) (by exact_mod_cast hc.bits) (by norm_num)
  linarith [mul_lt_mul_of_pos_right hbits hq]

/-- The shortest decimal rounds to its double. -/
theorem rounds_decimal (hm : 0 < m) (hc : Canonical m q) (tieToEven : Bool) :
    Rounds m q (decimal tieToEven m q).value := by
  have hfound : ((List.range 17).findSome? fun (n : Nat) =>
      ((interval m q).onGrid? tieToEven ((interval m q).magnitude - (n + 1))).map
        (Decimal.mk · ((interval m q).magnitude - (n + 1)))).isSome = true := by
    rw [List.findSome?_isSome_iff]
    refine ⟨16, by simp, ?_⟩
    rw [Option.isSome_map]
    exact onGrid?_isSome tieToEven (holds_of_step hm (ten_zpow_lt hm hc))
  obtain ⟨d, hd⟩ := Option.isSome_iff_exists.mp hfound
  obtain ⟨n, -, hn⟩ := List.exists_of_findSome?_eq_some hd
  obtain ⟨s, hs, rfl⟩ := Option.map_eq_some_iff.mp hn
  simp only [decimal, hd, Option.getD_some, value_dropZeros]
  exact (holds_iff hm).mp (holds_of_onGrid? hs)

end Shortest
end Formula
