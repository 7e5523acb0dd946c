import Formula.Number.Layout
import Formula.Proofs.Bits
import Formula.Proofs.Decimals
import Formula.Proofs.Munch
import Mathlib

/-! The plain text of numbers. It is a numeral that stands for a decimal which rounds to the number,
so that no two numbers have the same text. -/
namespace Formula

open Numeral (Mantissa isDigit ofDigits)
open Double (Canonical)
open Shortest (Decimal Rounds rounds_decimal)

/-- The number that a mantissa spells: its digits read in base ten, and a power of ten for the place
of the point. -/
def Numeral.Mantissa.exact (a : Mantissa) : ℚ :=
  Nat.ofDigitChars 10 (a.whole ++ a.fraction.getD []) 0 *
    10 ^ (-(a.fraction.getD []).length : Int)

theorem Numeral.Mantissa.exact_eq (a : Mantissa) :
    a.exact = ofDigits a.digits * 10 ^ (-(a.fraction.getD []).length : Int) := rfl

/-- A mantissa with an exponent is read as the double nearest to what it spells. -/
theorem Numeral.Mantissa.nearest_value (a : Mantissa) (e : Int) :
    (Double.view (a.value e)).Nearest false (a.exact * 10 ^ e) := by
  have hsplit : a.exact * 10 ^ e =
      ofDigits a.digits * 10 ^ (e - (a.fraction.getD []).length : Int) := by
    rw [exact_eq, mul_assoc, ← zpow_add₀ (by norm_num), neg_add_eq_sub]
  rw [hsplit]
  exact Double.nearest_ofDecimal _ _

/-- Only digits stand in a mantissa, and at least one. -/
structure Numeral.Mantissa.Proper (a : Mantissa) : Prop where
  digits : ∀ c ∈ a.digits, isDigit c = true
  nonempty : a.digits ≠ []

theorem Numeral.Mantissa.mem_spelling {a : Mantissa} {c : Char} (h : c ∈ a.spelling) :
    c ∈ a.digits ∨ c = '.' := by
  obtain ⟨whole, fraction⟩ := a
  cases fraction with
  | none => exact .inl (by simpa [spelling, digits] using h)
  | some fraction =>
    simp only [spelling, List.mem_append, List.mem_cons] at h
    rcases h with h | rfl | h
    · exact .inl (List.mem_append_left _ h)
    · exact .inr rfl
    · exact .inl (List.mem_append_right _ h)

theorem Numeral.Mantissa.Proper.cut?_spelling {a : Mantissa} (ha : a.Proper) :
    Mantissa.cut? a.spelling = some (a, []) :=
  Mantissa.cut?_eq_some_iff.mpr ⟨(List.append_nil _).symm, ha.digits, ha.nonempty, by simp⟩

/-- A mantissa is what its spelling says. -/
theorem Numeral.Mantissa.Proper.eq {a b : Mantissa} (ha : a.Proper) (hb : b.Proper)
    (h : a.spelling = b.spelling) : a = b := by
  have hsame := ha.cut?_spelling
  rw [h, hb.cut?_spelling] at hsame
  cases hsame
  rfl

namespace Numeral

theorem ofDigits_eq (cs : List Char) : ofDigits cs = Nat.ofDigitChars 10 cs 0 := rfl

theorem ofDigits_repr (n : Nat) : ofDigits n.repr.toList = n := by
  rw [ofDigits_eq, Nat.toList_repr, Nat.ofDigitChars_ten_toDigits]

theorem isDigit_repr {n : Nat} {c : Char} (h : c ∈ n.repr.toList) : isDigit c = true := by
  rw [Nat.toList_repr] at h
  have hc := Nat.isDigit_of_mem_toDigits (by norm_num) (by norm_num) h
  simp only [Char.isDigit, Bool.and_eq_true, decide_eq_true_eq] at hc
  simp only [isDigit, Bool.and_eq_true, decide_eq_true_eq]
  exact hc

theorem ofDigits_append_zeros (cs : List Char) (n : Nat) :
    ofDigits (cs ++ Layout.zeros n) = ofDigits cs * 10 ^ n := by
  rw [ofDigits_eq, Layout.zeros, Nat.ofDigitChars_append, Nat.ofDigitChars_replicate_zero, mul_comm,
    ofDigits_eq]

@[simp] theorem length_zeros (n : Nat) : (Layout.zeros n).length = n := List.length_replicate

theorem isDigit_of_mem_zeros {n : Nat} {c : Char} (h : c ∈ Layout.zeros n) : isDigit c = true := by
  rw [List.eq_of_mem_replicate h]
  decide

theorem ofDigits_zeros_append (n : Nat) (cs : List Char) :
    ofDigits (Layout.zeros n ++ cs) = ofDigits cs := by
  rw [ofDigits_eq, Layout.zeros, Nat.ofDigitChars_append, Nat.ofDigitChars_replicate_zero, mul_zero,
    ofDigits_eq]

end Numeral

namespace Layout

/-- Where the digits of a plain text stand around its point. -/
def plainMantissa (digits : List Char) (point : Int) : Mantissa :=
  if point ≤ 0 then ⟨['0'], some (zeros (-point).toNat ++ digits)⟩
  else if digits.length ≤ point.toNat then ⟨digits ++ zeros (point.toNat - digits.length), none⟩
  else ⟨digits.take point.toNat, some (digits.drop point.toNat)⟩

theorem spelling_plainMantissa (digits : List Char) (point : Int) :
    positionalText false digits point = (plainMantissa digits point).spelling := by
  unfold positionalText plainMantissa
  split
  · rfl
  · split
    · simp [Mantissa.spelling]
    · rfl

theorem proper_plainMantissa {digits : List Char} (h : ∀ c ∈ digits, isDigit c = true)
    (hne : digits ≠ []) (point : Int) : (plainMantissa digits point).Proper := by
  unfold plainMantissa
  split
  · refine ⟨fun c hc => ?_, by simp [Mantissa.digits]⟩
    simp only [Mantissa.digits, Option.getD_some, List.mem_append, List.mem_singleton] at hc
    rcases hc with rfl | hc | hc
    · decide
    · exact Numeral.isDigit_of_mem_zeros hc
    · exact h c hc
  · split
    · refine ⟨fun c hc => ?_, by simp [Mantissa.digits, hne]⟩
      simp only [Mantissa.digits, Option.getD_none, List.append_nil, List.mem_append] at hc
      rcases hc with hc | hc
      · exact h c hc
      · exact Numeral.isDigit_of_mem_zeros hc
    · constructor <;> simpa [Mantissa.digits, List.take_append_drop]

/-- A decimal is what its plain text spells. -/
theorem exact_plainMantissa (d : Decimal) :
    (plainMantissa d.coefficient.repr.toList
      (d.exponent + d.coefficient.repr.toList.length)).exact = d.value := by
  have hread := Numeral.ofDigits_repr d.coefficient
  generalize d.coefficient.repr.toList = digits at hread ⊢
  rw [Decimal.value, ← hread]
  unfold plainMantissa
  split
  · rename_i hpoint
    have hzero (n : Nat) : ofDigits (['0'] ++ (zeros n ++ digits)) = ofDigits digits :=
      Numeral.ofDigits_zeros_append (n + 1) digits
    simp only [Mantissa.exact_eq, Mantissa.digits, Option.getD_some, hzero, List.length_append,
      Numeral.length_zeros]
    congr 2
    push_cast
    omega
  · split
    · rename_i hpoint hlength
      have hexponent : d.exponent = ((d.exponent + digits.length).toNat - digits.length : Nat) := by
        omega
      simp only [Mantissa.exact_eq, Mantissa.digits, Option.getD_none, List.append_nil,
        Numeral.ofDigits_append_zeros, List.length_nil]
      generalize (d.exponent + digits.length).toNat - digits.length = n at hexponent ⊢
      rw [hexponent, zpow_natCast]
      simp
    · simp only [Mantissa.exact_eq, Mantissa.digits, Option.getD_some, List.take_append_drop,
        List.length_drop]
      congr 2
      omega

/-- What the plain text of a finite number spells: zero, or a number that rounds to it. -/
theorem magnitudeText_plain {m : Nat} {q : Int} (hc : Canonical m q) :
    ∃ a : Mantissa, plain.magnitudeText m q = a.spelling ∧ a.Proper ∧
      if m = 0 then a.exact = 0 else Rounds m q a.exact := by
  unfold magnitudeText
  split
  · refine ⟨⟨zeros 1, none⟩, rfl, ⟨fun c hc => ?_, by simp [Mantissa.digits, zeros]⟩, ?_⟩
    · exact Numeral.isDigit_of_mem_zeros (by simpa [Mantissa.digits] using hc)
    · have hzero : ofDigits (zeros 1) = 0 := Numeral.ofDigits_zeros_append 1 []
      simp [Mantissa.exact_eq, Mantissa.digits, hzero]
  · rename_i hm
    refine ⟨_, spelling_plainMantissa _ _,
      proper_plainMantissa (fun c => Numeral.isDigit_repr) ?_ _, ?_⟩
    · rw [Nat.toList_repr]
      exact Nat.toDigits_ne_nil
    · rw [exact_plainMantissa]
      exact rounds_decimal (Nat.pos_of_ne_zero hm) hc _

/-- The plain text of a finite number without its sign tells the number. -/
theorem magnitudeText_injective {m n : Nat} {p q : Int} (hm : Canonical m p) (hn : Canonical n q)
    (h : plain.magnitudeText m p = plain.magnitudeText n q) : m = n ∧ p = q := by
  obtain ⟨a, ha, hpa, hexact⟩ := magnitudeText_plain hm
  obtain ⟨b, hb, hpb, hexact'⟩ := magnitudeText_plain hn
  obtain rfl : a = b := hpa.eq hpb (by rw [← ha, ← hb, h])
  split at hexact <;> split at hexact'
  · rename_i hm' hn'
    subst hm' hn'
    exact ⟨rfl, hm.eq_least.trans hn.eq_least.symm⟩
  · exact absurd hexact (hexact'.pos (Nat.pos_of_ne_zero ‹_›)).ne'
  · exact absurd hexact' (hexact.pos (Nat.pos_of_ne_zero ‹_›)).ne'
  · exact hexact.unique hm hn hexact'

/-- Digits and the point. -/
def IsNumeric (c : Char) : Prop := isDigit c = true ∨ c = '.'

instance (c : Char) : Decidable (IsNumeric c) := inferInstanceAs (Decidable (_ ∨ _))

theorem isNumeric_of_mem_magnitudeText {m : Nat} {q : Int} (hc : Canonical m q) {c : Char}
    (h : c ∈ plain.magnitudeText m q) : IsNumeric c := by
  obtain ⟨a, ha, hpa, -⟩ := magnitudeText_plain hc
  rw [ha] at h
  exact (Mantissa.mem_spelling h).imp_left (hpa.digits c)

/-- The plain text of what a double stands for. -/
def plainChars : Double.View → List Char
  | .nan => ['N', 'a', 'N']
  | .infinite negative => (if negative then ['-'] else []) ++ ['i', 'n', 'f']
  | .finite negative m q => (if negative then ['-'] else []) ++ plain.magnitudeText m q

theorem toList_write_plain (x : Float) : (plain.write x).toList = plainChars (Double.view x) := by
  rw [write]
  split
  · simp [plain, plainChars, *]
  · rename_i negative _
    cases negative <;> simp [plain, plainChars, *]
  · simp [plainChars, *]

theorem isNumeric_of_mem_plainChars {negative : Bool} {m : Nat} {q : Int} (hc : Canonical m q)
    {c : Char} (h : c ∈ plainChars (.finite negative m q)) : c = '-' ∨ IsNumeric c := by
  rcases List.mem_append.mp h with hsign | hmagnitude
  · cases negative with
    | false => cases hsign
    | true => exact .inl (List.mem_singleton.mp hsign)
  · exact .inr (isNumeric_of_mem_magnitudeText hc hmagnitude)

/-- A text with a letter in it is the plain text of no finite number. -/
theorem plainChars_finite_ne {negative : Bool} {m : Nat} {q : Int} (hc : Canonical m q) (c : Char)
    (hletter : ¬ (c = '-' ∨ IsNumeric c)) {cs : List Char} (h : c ∈ cs) :
    plainChars (.finite negative m q) ≠ cs := by
  rintro rfl
  exact hletter (isNumeric_of_mem_plainChars hc h)

/-- Two texts behind a sign, or none, differ if the signs do. -/
theorem signed_injective {s t : Bool} {cs ds : List Char} (hcs : '-' ∉ cs) (hds : '-' ∉ ds)
    (h : (if s then ['-'] else []) ++ cs = (if t then ['-'] else []) ++ ds) : s = t ∧ cs = ds := by
  cases s with
  | false =>
    cases t with
    | false => exact ⟨rfl, h⟩
    | true =>
      obtain rfl : cs = '-' :: ds := h
      exact absurd List.mem_cons_self hcs
  | true =>
    cases t with
    | false =>
      obtain rfl : '-' :: cs = ds := h
      exact absurd List.mem_cons_self hds
    | true => exact ⟨rfl, (List.cons.inj h).2⟩

/-- The plain text tells what the number is. -/
theorem plainChars_injective {u v : Double.View}
    (hu : ∀ s m q, u = .finite s m q → Canonical m q)
    (hv : ∀ s m q, v = .finite s m q → Canonical m q) (h : plainChars u = plainChars v) :
    u = v := by
  have hminus {m : Nat} {q : Int} (hc : Canonical m q) : '-' ∉ plain.magnitudeText m q :=
    fun hmem => absurd (isNumeric_of_mem_magnitudeText hc hmem) (by decide)
  have hnan : 'N' ∈ plainChars .nan := List.mem_cons_self
  have hinfinite (t : Bool) : 'i' ∈ plainChars (.infinite t) :=
    List.mem_append_right _ List.mem_cons_self
  cases u with
  | nan =>
    cases v with
    | nan => rfl
    | infinite t => cases t <;> cases h
    | finite t n q => exact absurd h.symm (plainChars_finite_ne (hv t n q rfl) _ (by decide) hnan)
  | infinite s =>
    cases v with
    | nan => cases s <;> cases h
    | infinite t => rw [(signed_injective (by decide) (by decide) h).1]
    | finite t n q =>
      exact absurd h.symm (plainChars_finite_ne (hv t n q rfl) _ (by decide) (hinfinite s))
  | finite s m p =>
    have hm := hu s m p rfl
    cases v with
    | nan => exact absurd h (plainChars_finite_ne hm _ (by decide) hnan)
    | infinite t => exact absurd h (plainChars_finite_ne hm _ (by decide) (hinfinite t))
    | finite t n q =>
      have hn := hv t n q rfl
      obtain ⟨rfl, hsame⟩ := signed_injective (hminus hm) (hminus hn) h
      obtain ⟨rfl, rfl⟩ := magnitudeText_injective hm hn hsame
      rfl

/-- No two doubles have the same plain text. -/
theorem write_plain_injective {x y : Float} (h : plain.write x = plain.write y) : x = y := by
  have hchars := congrArg String.toList h
  rw [toList_write_plain, toList_write_plain] at hchars
  exact Double.view_injective (plainChars_injective (fun _ _ _ => Double.canonical_of_view)
    (fun _ _ _ => Double.canonical_of_view) hchars)

/-- The characters of numbers: digits, the point, the minus and the letters of NaN and inf. -/
def InNumbers (c : Char) : Prop := IsNumeric c ∨ c ∈ ['-', 'N', 'a', 'i', 'n', 'f']

instance (c : Char) : Decidable (InNumbers c) := inferInstanceAs (Decidable (_ ∨ _))

/-- The plain text of a number is not empty, and it has no other characters in it. -/
theorem write_plain_chars (x : Float) :
    (plain.write x).toList ≠ [] ∧ ∀ c ∈ (plain.write x).toList, InNumbers c := by
  rw [toList_write_plain]
  cases hx : Double.view x with
  | nan => simp [plainChars, InNumbers]
  | infinite negative => cases negative <;> simp [plainChars, InNumbers]
  | finite negative m q =>
    have hc := Double.canonical_of_view hx
    constructor
    · obtain ⟨a, ha, hpa, -⟩ := magnitudeText_plain hc
      have hlength := List.length_pos_iff.mpr hpa.nonempty
      rw [plainChars, ha]
      refine List.append_ne_nil_of_right_ne_nil _ (List.length_pos_iff.mp ?_)
      exact hlength.trans_le a.length_digits_le
    · intro c h
      rcases isNumeric_of_mem_plainChars hc h with rfl | h
      · exact .inr (by decide)
      · exact .inl h

end Layout

end Formula
