import Formula.Number.Double
import Mathlib

/-! Doubles and their bits. There is one NaN, so that what a double stands for is all there is to
it; and the order of doubles has the laws of orders, but that NaN is outside it and that the two
zeros share a place. -/
namespace Formula.Double

variable {x y : Float}

/-- Every NaN has the same bits. -/
theorem bits_of_nan (hk : x.toBits.toNat / 2 ^ 52 % 2 ^ 11 = 2047)
    (hf : x.toBits.toNat % 2 ^ 52 ≠ 0) : x.toBits.toNat = 0x7FF8000000000000 := by
  have hbits : x.toBits.toBitVec = Float.Model.UnpackedFloat.packedNaN .binary64 := by
    refine x.toModel.valid.eq_packedNaN (BitVec.eq_of_toNat_eq ?_) fun h => hf ?_
    · simpa [Float.Model.UnpackedFloat.unpackExponent, Float.toBits, Nat.shiftRight_eq_div_pow]
        using hk
    · simpa [Float.Model.UnpackedFloat.unpackMantissa, Float.toBits] using congrArg BitVec.toNat h
  exact congrArg BitVec.toNat hbits

/-- The bits of what a double stands for. -/
def View.bits : View → Nat
  | .nan => 0x7FF8000000000000
  | .infinite negative => negative.toNat * 2 ^ 63 + 2047 * 2 ^ 52
  | .finite negative m q =>
    negative.toNat * 2 ^ 63 + if m < 2 ^ 52 then m else (q + 1075).toNat * 2 ^ 52 + (m - 2 ^ 52)

/-- What a double stands for says what its bits are. -/
theorem bits_view (x : Float) : (view x).bits = x.toBits.toNat := by
  have hx : x.toBits.toNat < 2 ^ 64 := x.toBits.toNat_lt
  have hnan := @bits_of_nan x
  simp only [view, Nat.shiftRight_eq_div_pow, Nat.shiftLeft_eq, Nat.one_mul]
  generalize x.toBits.toNat = b at hx hnan ⊢
  have hsign : (decide (2 ^ 63 ≤ b)).toNat = b / 2 ^ 63 := by
    by_cases h : 2 ^ 63 ≤ b
    · simp only [h, decide_true, Bool.toNat_true]
      omega
    · simp only [h, decide_false, Bool.toNat_false]
      omega
  split
  · split
    · simp only [View.bits, hsign]
      omega
    · rw [View.bits, hnan (by omega) (by omega)]
  · split
    · simp only [View.bits, hsign]
      rw [if_pos (by omega)]
      omega
    · simp only [View.bits, hsign]
      rw [if_neg (by omega)]
      omega

/-- Doubles with the same bits are the same. -/
theorem eq_of_bits (h : x.toBits.toNat = y.toBits.toNat) : x = y := by
  have hbits : x.toBits = y.toBits := UInt64.toNat_inj.mp h
  obtain ⟨⟨bits, valid⟩⟩ := x
  obtain ⟨⟨bits', valid'⟩⟩ := y
  obtain rfl : bits = bits' := hbits
  rfl

/-- A double is what it stands for. -/
theorem view_injective (h : view x = view y) : x = y :=
  eq_of_bits (by rw [← bits_view, h, bits_view])

/-- The place of bits in the order of doubles, should they have one. -/
def place (b : Nat) : Int :=
  if b < 2 ^ 63 then ((b % 2 ^ 63 : Nat) : Int) else -((b % 2 ^ 63 : Nat) : Int)

theorem rank?_eq (x : Float) : rank? x =
    if 0x7FF0000000000000 < x.toBits.toNat % 2 ^ 63 then none else some (place x.toBits.toNat) := by
  rw [rank?, Nat.shiftLeft_eq, Nat.one_mul, place]

/-- NaN and nothing else is outside the order. -/
theorem rank?_eq_none_iff : rank? x = none ↔ view x = .nan := by
  rw [rank?_eq]
  constructor
  · intro h
    have hlarge : 0x7FF0000000000000 < x.toBits.toNat % 2 ^ 63 := by
      by_contra hle
      rw [if_neg hle] at h
      cases h
    simp only [view, Nat.shiftRight_eq_div_pow, Nat.shiftLeft_eq, Nat.one_mul]
    rw [if_pos (by omega), if_neg (by omega)]
  · intro h
    have hbits : x.toBits.toNat = 0x7FF8000000000000 := by rw [← bits_view, h]; rfl
    exact if_pos (by omega)

theorem place_of_rank {a : Int} (h : rank? x = some a) : place x.toBits.toNat = a := by
  rw [rank?_eq] at h
  split at h
  · cases h
  · exact Option.some.inj h

/-- But for the zeros, no two doubles share a place. -/
theorem eq_of_rank {a : Int} (ha : a ≠ 0) (hx : rank? x = some a) (hy : rank? y = some a) :
    x = y := by
  have hplace := (place_of_rank hx).trans (place_of_rank hy).symm
  rw [← place_of_rank hx] at ha
  have hxlt : x.toBits.toNat < 2 ^ 64 := x.toBits.toNat_lt
  have hylt : y.toBits.toNat < 2 ^ 64 := y.toBits.toNat_lt
  apply eq_of_bits
  unfold place at ha hplace
  split at hplace <;> split at hplace <;> omega

/-- The double with the sign of zero forgotten. -/
def oneZero (x : Float) : Float := if isZero x then 0.0 else x

theorem isZero_zero : isZero 0.0 = true := by decide +kernel

theorem isZero_iff : isZero x = true ↔ rank? x = some 0 := by
  rw [isZero, beq_iff_eq]

/-- Equal doubles are the same but for the sign of zero. -/
theorem equal_iff : equal x y = true ↔ view x ≠ .nan ∧ oneZero x = oneZero y := by
  have heq : equal x y = true ↔ ∃ a, rank? x = some a ∧ rank? y = some a := by
    rw [equal, compare?]
    cases rank? x with
    | none => simp
    | some a =>
      cases rank? y with
      | none => simp
      | some b =>
        simp only [beq_iff_eq, Option.some.injEq, Std.compare_eq_iff_eq, exists_eq_left']
        exact eq_comm
  rw [heq]
  constructor
  · rintro ⟨a, hx, hy⟩
    refine ⟨fun hnan => ?_, ?_⟩
    · rw [rank?_eq_none_iff.mpr hnan] at hx
      cases hx
    · by_cases ha : a = 0
      · subst ha
        rw [oneZero, oneZero, if_pos (isZero_iff.mpr hx), if_pos (isZero_iff.mpr hy)]
      · rw [eq_of_rank ha hx hy]
  · rintro ⟨hnan, hsame⟩
    obtain ⟨a, ha⟩ := Option.ne_none_iff_exists'.mp (mt rank?_eq_none_iff.mp hnan)
    unfold oneZero at hsame
    split at hsame <;> split at hsame
    · exact ⟨0, isZero_iff.mp ‹_›, isZero_iff.mp ‹_›⟩
    · exact absurd (hsame ▸ isZero_zero) ‹_›
    · exact absurd (hsame ▸ isZero_zero) ‹_›
    · exact ⟨a, ha, hsame ▸ ha⟩

theorem compare?_swap (x y : Float) : compare? y x = (compare? x y).map .swap := by
  rw [compare?, compare?]
  cases rank? x with
  | none => cases rank? y <;> rfl
  | some a =>
    cases rank? y with
    | none => rfl
    | some b => exact congrArg some Std.OrientedCmp.eq_swap

end Formula.Double
