import Formula.Proofs.Rounding

/-! Doubles packed and unpacked. A number with a significand of 53 bits and an exponent in range is
what its double stands for; an exponent out of range makes the double infinite. -/
namespace Formula.Double

open Float.Model UnpackedFloat

variable {x : Float} {s : Sign} {m : Nat} {q : Int}

def isMinus : Sign → Bool
  | .negative => true
  | .positive => false

def signOf (negative : Bool) : Sign := if negative then .negative else .positive

theorem isMinus_neg (s : Sign) : isMinus (-s) = !isMinus s := by
  cases s <;> rfl

theorem isMinus_signOf (negative : Bool) : isMinus (signOf negative) = negative := by
  cases negative <;> rfl

/-! ### The fields of a word -/

theorem toNat_unpackExponent (b : BitVec 64) :
    (@unpackExponent .binary64 b).toNat = b.toNat / 2 ^ 52 % 2 ^ 11 := by
  simp [unpackExponent, Nat.shiftRight_eq_div_pow]

theorem toNat_unpackMantissa (b : BitVec 64) :
    (@unpackMantissa .binary64 b).toNat = b.toNat % 2 ^ 52 := by
  simp [unpackMantissa]

theorem ofBitVec_unpackSign (b : BitVec 64) :
    Sign.ofBitVec (@unpackSign .binary64 b) = signOf (decide (2 ^ 63 ≤ b.toNat)) := by
  have hlt := b.isLt
  have hsign : (@unpackSign .binary64 b).toNat = b.toNat / 2 ^ 63 := by
    simp [unpackSign, Nat.shiftRight_eq_div_pow]
    omega
  have hzero : @unpackSign .binary64 b = 0#1 ↔ ¬ 2 ^ 63 ≤ b.toNat := by
    rw [← BitVec.toNat_inj, hsign, BitVec.toNat_ofNat]
    omega
  rw [Sign.ofBitVec, signOf]
  simp only [hzero, decide_eq_true_eq, ite_not]

/-- The form that arithmetic works on, in which zero has no significand. -/
def View.unpacked : View → UnpackedFloat
  | .nan => .notANumber
  | .infinite negative => .infinity (signOf negative)
  | .finite negative m q =>
    if h : m = 0 then .zero (signOf negative)
    else .finite (signOf negative) m q (Nat.pos_of_ne_zero h)

theorem finite_congr {n : Nat} {p : Int} {hm : 0 < m} {hn : 0 < n} (h : m = n) (hq : q = p) :
    UnpackedFloat.finite s m q hm = .finite s n p hn := by
  subst h hq
  rfl

theorem unpack_eq (x : Float) : x.toModel.unpack = (view x).unpacked := by
  have hbias : (Format.binary64.exponentBias : Int) = 1023 := rfl
  have hbits : x.toBits.toNat = x.toModel.toBits.toBitVec.toNat := rfl
  have hones (k : BitVec 11) : k = -1#11 ↔ k.toNat = 2047 := (BitVec.toNat_inj (y := -1#11)).symm
  have hnone (k : BitVec 11) : k = 0#11 ↔ k.toNat = 0 := (BitVec.toNat_inj (y := 0#11)).symm
  have hempty (f : BitVec 52) : f = 0#52 ↔ f.toNat = 0 := (BitVec.toNat_inj (y := 0#52)).symm
  have hwhole (f : BitVec 52) : (1#1 ++ f).toNat = f.toNat + 2 ^ 52 := by
    rw [BitVec.toNat_append, ← Nat.shiftLeft_add_eq_or_of_lt f.isLt]
    exact Nat.add_comm _ _
  rw [Float.Model.unpack, UnpackedFloat.unpack]
  simp only [view, hbits, Nat.shiftRight_eq_div_pow, Nat.shiftLeft_eq, Nat.one_mul, hones, hnone,
    hempty, hwhole, ofBitVec_unpackSign, toNat_unpackExponent, toNat_unpackMantissa, hbias]
  split
  · split <;> rfl
  · split
    · rename_i hfield
      rw [View.unpacked]
      split
      · rfl
      · exact finite_congr rfl (by rw [hfield]; rfl)
    · rw [View.unpacked, dif_neg (by omega)]
      exact finite_congr rfl rfl

/-! ### Packing -/

theorem toNat_packComponents (s : Sign) (k : BitVec 11) (f : BitVec 52) :
    (packComponents .binary64 s k f).toNat =
      (isMinus s).toNat * 2 ^ 63 + k.toNat * 2 ^ 52 + f.toNat := by
  have hsign : s.toBitVec.toNat = (isMinus s).toNat := by cases s <;> rfl
  change ((s.toBitVec ++ k) ++ f).toNat = _
  rw [BitVec.toNat_append, ← Nat.shiftLeft_add_eq_or_of_lt f.isLt, BitVec.toNat_append,
    ← Nat.shiftLeft_add_eq_or_of_lt k.isLt, Nat.shiftLeft_eq, Nat.shiftLeft_eq, hsign]
  omega

theorem view_packComponents {s : Sign} {k : BitVec 11} {f : BitVec 52}
    (hx : x.toModel.toBits.toBitVec = packComponents .binary64 s k f) :
    view x =
      if k.toNat = 2047 then if f.toNat = 0 then .infinite (isMinus s) else .nan
      else if k.toNat = 0 then .finite (isMinus s) f.toNat (-1074)
      else .finite (isMinus s) (f.toNat + 2 ^ 52) (k.toNat - 1075) := by
  have hbits : x.toBits.toNat = (packComponents .binary64 s k f).toNat := congrArg BitVec.toNat hx
  have hk : k.toNat < 2 ^ 11 := k.isLt
  have hf : f.toNat < 2 ^ 52 := f.isLt
  have hsign : decide (2 ^ 63 ≤ x.toBits.toNat) = isMinus s := by
    rw [hbits, toNat_packComponents]
    cases s with
    | negative => exact decide_eq_true (by simp only [isMinus, Bool.toNat_true]; omega)
    | positive => exact decide_eq_false (by simp only [isMinus, Bool.toNat_false]; omega)
  have hfield : x.toBits.toNat / 2 ^ 52 % 2 ^ 11 = k.toNat := by
    rw [hbits, toNat_packComponents]
    omega
  have hfraction : x.toBits.toNat % 2 ^ 52 = f.toNat := by
    rw [hbits, toNat_packComponents]
    omega
  simp only [view, Nat.shiftRight_eq_div_pow, Nat.shiftLeft_eq, Nat.one_mul, hsign, hfield,
    hfraction]

theorem view_pack_zero (s : Sign) :
    view (.ofModel (.pack (.zero s))) = .finite (isMinus s) 0 (-1074) :=
  view_packComponents (x := .ofModel (.pack (.zero s))) rfl

theorem view_pack_infinity (s : Sign) :
    view (.ofModel (.pack (.infinity s))) = .infinite (isMinus s) :=
  view_packComponents (x := .ofModel (.pack (.infinity s))) rfl

theorem pack_finite (s : Sign) (hm : 0 < m) (q : Int) :
    UnpackedFloat.pack .binary64 (.finite s m q hm) =
      if 971 < q then packComponents .binary64 s (-1#11) 0#52
      else if m.log2 = 52 then
        packComponents .binary64 s (BitVec.ofNat 11 (q + 1075).toNat) (BitVec.ofNat 52 m)
      else packComponents .binary64 s 0#11 (BitVec.ofNat 52 m) := by
  have hfield : q + Format.binary64.exponentBias + Format.binary64.mantissaBitsWithoutImplicit =
      q + 1075 := by
    change q + 1023 + 52 = _
    omega
  have hover : 2 ^ Format.binary64.exponentBits ≤ (q + 1075).toNat + 1 ↔ 971 < q := by
    change 2048 ≤ _ ↔ _
    omega
  have hlength : m.log2 + 1 = Format.binary64.mantissaBits ↔ m.log2 = 52 := by
    change _ = 53 ↔ _
    omega
  simp only [UnpackedFloat.pack, hfield, hover, hlength]
  rfl

theorem view_pack_finite (s : Sign) (hm : 0 < m) (hc : Canonical m q) :
    view (.ofModel (.pack (.finite s m q hm))) = .finite (isMinus s) m q := by
  have hbits := hc.bits
  have hleast := hc.least
  have hmost := hc.most
  have hpack := pack_finite s hm q
  have hlog : m.log2 = 52 ↔ 2 ^ 52 ≤ m := by
    rw [← Nat.le_log2 hm.ne']
    have hlt : m.log2 < 53 := (Nat.log2_lt hm.ne').mpr hbits
    omega
  rw [if_neg (by omega)] at hpack
  split at hpack
  · rename_i hlength
    have hlow := hlog.mp hlength
    rw [view_packComponents hpack, BitVec.toNat_ofNat, BitVec.toNat_ofNat, if_neg (by omega),
      if_neg (by omega)]
    congr 1 <;> omega
  · rename_i hlength
    have hlow := mt hlog.mpr hlength
    have hfraction : (BitVec.ofNat 52 m).toNat = m := by
      rw [BitVec.toNat_ofNat, Nat.mod_eq_of_lt (by omega)]
    rw [view_packComponents hpack, hfraction, hc.full.resolve_right hlow]
    rfl

/-- A number with a greater exponent than a double can have overflows. -/
theorem view_pack_overflow (s : Sign) (hm : 0 < m) (hq : 971 < q) :
    view (.ofModel (.pack (.finite s m q hm))) = .infinite (isMinus s) := by
  have hpack := pack_finite s hm q
  rw [if_pos hq] at hpack
  rw [view_packComponents hpack]
  rfl

/-! ### Negation -/

def View.neg : View → View
  | .nan => .nan
  | .infinite negative => .infinite !negative
  | .finite negative m q => .finite (!negative) m q

theorem view_pack_nan : view (.ofModel (.pack .notANumber)) = .nan :=
  view_packComponents (x := .ofModel (.pack .notANumber)) (s := .positive) rfl

theorem view_neg (x : Float) : view (-x) = (view x).neg := by
  have hneg : -x = .ofModel (.pack (view x).unpacked.neg) := by
    rw [← unpack_eq]
    rfl
  rw [hneg]
  cases hx : view x with
  | nan => exact view_pack_nan
  | infinite negative =>
    rw [View.unpacked, UnpackedFloat.neg, view_pack_infinity, isMinus_neg, isMinus_signOf, View.neg]
  | finite negative m q =>
    have hc := canonical_of_view hx
    rw [View.unpacked, View.neg]
    split
    · rename_i hm
      subst hm
      rw [UnpackedFloat.neg, view_pack_zero, isMinus_neg, isMinus_signOf, hc.eq_least]
    · rw [UnpackedFloat.neg, view_pack_finite _ _ hc, isMinus_neg, isMinus_signOf]

end Formula.Double
