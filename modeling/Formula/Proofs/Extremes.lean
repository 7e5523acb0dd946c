import Formula.Proofs.Comparison
import Formula.Proofs.Uniqueness
import Mathlib

/-! Extremes. The order of values is by number or by text, as the pair may be, so it is not transitive:
a value that is no number can stand by text between two numbers that are not in that order as numbers.
Main statement: a minimum or a maximum is passed only by candidates that are at odds in this way with
two others, and there is an order of any three that are at odds for which it is passed. -/
namespace Formula

/-- Less is transitive among doubles, NaN included, since NaN is not ordered with anything. -/
theorem Double.compare?_lt_trans {x y z : Float} (hxy : compare? x y = some .lt)
    (hyz : compare? y z = some .lt) : compare? x z = some .lt := by
  unfold compare? at *
  cases hx : rank? x with
  | none => simp [hx] at hxy
  | some a =>
    cases hy : rank? y with
    | none => simp [hx, hy] at hxy
    | some b =>
      cases hz : rank? z with
      | none => simp [hy, hz] at hyz
      | some c =>
        simp only [hx, hy, hz, Option.some.injEq, compare_lt_iff_lt] at hxy hyz ⊢
        exact hxy.trans hyz

namespace Value

variable {a b c t v w x y : Value} {wanted : Ordering}

theorem compare?_eq_some_swap {o : Ordering} :
    v.compare? w = some o.swap ↔ w.compare? v = some o := by
  rw [compare?_swap w v]
  cases w.compare? v with
  | none => simp
  | some p => cases p <;> cases o <;> decide

/-- No value comes before or behind itself. -/
theorem compare?_self_ne (h : wanted ≠ .eq) : v.compare? v ≠ some wanted := by
  intro hv
  have hswap := compare?_eq_some_swap.mpr hv
  rw [hv] at hswap
  cases wanted with
  | lt => cases hswap
  | eq => exact h rfl
  | gt => cases hswap

theorem compare?_of_text (h : v.number? = none ∨ w.number? = none) :
    v.compare? w = some (compare v.asText w.asText) := by
  unfold compare?
  rcases h with h | h
  · rw [h]
  · cases hv : v.number? <;> simp [h]

theorem less_iff_of_text (h : v.number? = none ∨ w.number? = none) :
    v.compare? w = some .lt ↔ v.asText < w.asText := by
  rw [compare?_of_text h, Option.some.injEq, compare_lt_iff_lt]

/-- A value that is no number stands by text between two numbers that are not in that order. -/
structure AtOdds (x t y : Value) : Prop where
  first : x.number? ≠ none
  between : t.number? = none
  last : y.number? ≠ none
  order : x.asText < t.asText ∧ t.asText < y.asText ∧ x.compare? y ≠ some .lt ∨
    x.asText ≤ t.asText ∧ t.asText ≤ y.asText ∧ x.asText ≠ y.asText ∧ y.compare? x = some .lt

/-- The value `c` passes `b`, which passes `a`, and yet `c` does not pass `a`. -/
structure BrokenChain (wanted : Ordering) (c b a : Value) : Prop where
  upper : c.compare? b = some wanted
  lower : b.compare? a = some wanted
  broken : c.compare? a ≠ some wanted

theorem BrokenChain.swap (h : BrokenChain wanted c b a) : BrokenChain wanted.swap a b c :=
  ⟨compare?_eq_some_swap.mpr h.lower, compare?_eq_some_swap.mpr h.upper,
    mt compare?_eq_some_swap.mp h.broken⟩

/-- A chain breaks only where two numbers and a value that is no number meet. -/
theorem BrokenChain.exists_atOdds_of_lt (h : BrokenChain .lt a b c) :
    ∃ x t y, AtOdds x t y ∧ [x, t, y].Perm [a, b, c] := by
  obtain ⟨hab, hbc, hac⟩ := h
  by_cases ha : a.number? = none
  · rw [less_iff_of_text (.inl ha)] at hab
    rw [ne_eq, less_iff_of_text (.inl ha)] at hac
    by_cases htext : b.number? = none ∨ c.number? = none
    · rw [less_iff_of_text htext] at hbc
      exact absurd (hab.trans hbc) hac
    · obtain ⟨hb, hc⟩ := not_or.mp htext
      have hca : c.asText ≤ a.asText := not_lt.mp hac
      exact ⟨c, a, b, ⟨hc, ha, hb, .inr ⟨hca, hab.le, (hca.trans_lt hab).ne, hbc⟩⟩,
        (List.perm_append_singleton c [a, b]).symm⟩
  · by_cases hb : b.number? = none
    · rw [less_iff_of_text (.inr hb)] at hab
      rw [less_iff_of_text (.inl hb)] at hbc
      by_cases hc : c.number? = none
      · rw [ne_eq, less_iff_of_text (.inr hc)] at hac
        exact absurd (hab.trans hbc) hac
      · exact ⟨a, b, c, ⟨ha, hb, hc, .inl ⟨hab, hbc, hac⟩⟩, .refl _⟩
    · by_cases hc : c.number? = none
      · rw [less_iff_of_text (.inr hc)] at hbc
        rw [ne_eq, less_iff_of_text (.inr hc)] at hac
        have hca : c.asText ≤ a.asText := not_lt.mp hac
        exact ⟨b, c, a, ⟨hb, hc, ha, .inr ⟨hbc.le, hca, (hbc.trans_le hca).ne, hab⟩⟩,
          List.perm_append_singleton a [b, c]⟩
      · -- three numbers
        obtain ⟨x, hx⟩ := Option.ne_none_iff_exists'.mp ha
        obtain ⟨y, hy⟩ := Option.ne_none_iff_exists'.mp hb
        obtain ⟨z, hz⟩ := Option.ne_none_iff_exists'.mp hc
        simp only [compare?, hx, hy, hz] at hab hbc hac
        exact absurd (Double.compare?_lt_trans hab hbc) hac

theorem AtOdds.exists_brokenChain_lt (h : AtOdds x t y) :
    ∃ a b c, BrokenChain .lt a b c ∧ [a, b, c].Perm [x, t, y] := by
  obtain ⟨hx, ht, hy, ⟨hxt, hty, hxy⟩ | ⟨hxt, hty, hne, hyx⟩⟩ := h
  · exact ⟨x, t, y, ⟨(less_iff_of_text (.inr ht)).mpr hxt, (less_iff_of_text (.inl ht)).mpr hty, hxy⟩,
      .refl _⟩
  · rcases hxt.lt_or_eq with hlt | heq
    · refine ⟨y, x, t, ⟨hyx, (less_iff_of_text (.inr ht)).mpr hlt, ?_⟩,
        (List.perm_append_singleton y [x, t]).symm⟩
      rw [ne_eq, less_iff_of_text (.inr ht)]
      exact hty.not_gt
    · refine ⟨t, y, x, ⟨(less_iff_of_text (.inl ht)).mpr ?_, hyx, ?_⟩,
        List.perm_append_singleton x [t, y]⟩
      · rw [← heq]
        exact lt_of_le_of_ne (heq ▸ hty) hne
      · rw [ne_eq, less_iff_of_text (.inl ht), heq]
        exact lt_irrefl _

theorem BrokenChain.exists_atOdds (hw : wanted ≠ .eq) (h : BrokenChain wanted c b a) :
    ∃ x t y, AtOdds x t y ∧ [x, t, y].Perm [c, b, a] := by
  cases wanted with
  | lt => exact h.exists_atOdds_of_lt
  | eq => exact absurd rfl hw
  | gt =>
    obtain ⟨x, t, y, hodds, hperm⟩ := h.swap.exists_atOdds_of_lt
    exact ⟨x, t, y, hodds, hperm.trans (List.reverse_perm [c, b, a])⟩

theorem AtOdds.exists_brokenChain (hw : wanted ≠ .eq) (h : AtOdds x t y) :
    ∃ c b a, BrokenChain wanted c b a ∧ [c, b, a].Perm [x, t, y] := by
  obtain ⟨a, b, c, hchain, hperm⟩ := h.exists_brokenChain_lt
  cases wanted with
  | lt => exact ⟨a, b, c, hchain, hperm⟩
  | eq => exact absurd rfl hw
  | gt => exact ⟨c, b, a, hchain.swap, (List.reverse_perm [a, b, c]).trans hperm⟩

/-- The value is one of three among `vs` that are at odds. -/
def Involved (vs : List Value) (c : Value) : Prop :=
  ∃ x ∈ vs, ∃ t ∈ vs, ∃ y ∈ vs, AtOdds x t y ∧ c ∈ [x, t, y]

theorem not_involved_of_numbers {vs : List Value} (h : ∀ v ∈ vs, v.number? ≠ none) :
    ¬ Involved vs c :=
  fun ⟨_, _, t, ht, _, _, hodds, _⟩ => h t ht hodds.between

end Value

namespace Function

open Value

variable {wanted : Ordering} {a b c first v : Value} {others vs args : List Value}

theorem best_cons : best wanted first (v :: vs) =
    if v.compare? first = some wanted then best wanted v vs else best wanted first vs := by
  rw [best, List.foldl_cons]
  by_cases h : v.compare? first = some wanted
  · rw [if_pos h, if_pos (beq_iff_eq.mpr h), best]
  · rw [if_neg h, if_neg (mt beq_iff_eq.mp h), best]

/-- No chain of two values of `vs` is broken for `c`. -/
def Unbroken (wanted : Ordering) (vs : List Value) (c : Value) : Prop :=
  ∀ b ∈ vs, ∀ a ∈ vs, ¬ BrokenChain wanted c b a

theorem Unbroken.mono {ws : List Value} (h : Unbroken wanted vs c) (hws : ws ⊆ vs) :
    Unbroken wanted ws c :=
  fun b hb a ha => h b (hws hb) a (hws ha)

/-- A value that does not pass the first does not pass what the others leave of it. -/
theorem not_passes_best (h : Unbroken wanted (first :: others) c)
    (hc : c.compare? first ≠ some wanted) : c.compare? (best wanted first others) ≠ some wanted := by
  induction others generalizing first with
  | nil => exact hc
  | cons v vs ih =>
    rw [best_cons]
    split
    case isTrue hv =>
      refine ih (h.mono (List.subset_cons_self first _)) fun hcv => ?_
      exact h v (by simp) first (by simp) ⟨hcv, hv, hc⟩
    case isFalse =>
      exact ih (h.mono (List.cons_subset_cons first (List.subset_cons_self v vs))) hc

/-- What comes by is not passed later, since from then on it does not pass the best. -/
theorem not_passes_best_of_mem (hw : wanted ≠ .eq) (h : Unbroken wanted (first :: others) c)
    (hc : c ∈ first :: others) : c.compare? (best wanted first others) ≠ some wanted := by
  induction others generalizing first with
  | nil =>
    rw [List.mem_singleton.mp hc]
    exact compare?_self_ne hw
  | cons v vs ih =>
    rcases List.mem_cons.mp hc with rfl | hc
    · exact not_passes_best h (compare?_self_ne hw)
    · rw [best_cons]
      split
      case isTrue => exact ih (h.mono (List.subset_cons_self first _)) hc
      case isFalse hv =>
        have hrest := h.mono (List.cons_subset_cons first (List.subset_cons_self v vs))
        rcases List.mem_cons.mp hc with rfl | hc
        · exact not_passes_best hrest hv
        · exact ih hrest (List.mem_cons_of_mem first hc)

theorem involved_of_passes_best (hw : wanted ≠ .eq) (hc : c ∈ first :: others)
    (hp : c.compare? (best wanted first others) = some wanted) : Involved (first :: others) c := by
  have hbroken : ¬ Unbroken wanted (first :: others) c :=
    fun h => not_passes_best_of_mem hw h hc hp
  unfold Unbroken at hbroken
  push Not at hbroken
  obtain ⟨b, hb, a, ha, hchain⟩ := hbroken
  obtain ⟨x, t, y, hodds, hperm⟩ := hchain.exists_atOdds hw
  have hmem : [x, t, y] ⊆ first :: others := by
    refine List.Subset.trans hperm.subset ?_
    simp [hc, ha, hb]
  exact ⟨x, hmem (by simp), t, hmem (by simp), y, hmem (by simp), hodds,
    hperm.mem_iff.mpr (List.mem_cons_self ..)⟩

/-- A broken chain whose last value comes first leaves the middle one, which the other passes. -/
theorem best_of_brokenChain (h : BrokenChain wanted c b a) : best wanted a [c, b] = b := by
  rw [best_cons, if_neg h.broken, best_cons, if_pos h.lower]
  rfl

theorem candidates_of_two : candidates (a :: b :: vs) = a :: b :: vs := by cases a <;> rfl

theorem extreme_spec {name : String} (hw : wanted ≠ .eq) (h : candidates args ≠ []) :
    ∃ r ∈ candidates args, extreme name wanted args = .ok r ∧
      ∀ c ∈ candidates args, c.compare? r = some wanted → Involved (candidates args) c := by
  unfold extreme
  cases hargs : candidates args with
  | nil => exact absurd hargs h
  | cons v vs => exact ⟨_, best_mem wanted v vs, rfl, fun c hc hp => involved_of_passes_best hw hc hp⟩

theorem exists_extreme_passed {name : String} {x t y : Value} (hw : wanted ≠ .eq)
    (h : AtOdds x t y) :
    ∃ args, args.Perm [x, t, y] ∧ ∃ r, extreme name wanted args = .ok r ∧
      ∃ c ∈ args, c.compare? r = some wanted := by
  obtain ⟨c, b, a, hchain, hperm⟩ := h.exists_brokenChain hw
  refine ⟨[a, c, b], .trans ?_ hperm, b, ?_, c, by simp, hchain.upper⟩
  · exact (List.perm_append_singleton a [c, b]).symm
  · rw [extreme, candidates_of_two]
    exact congrArg Except.ok (best_of_brokenChain hchain)

/-- A minimum is one of the candidates, and no candidate is less unless it is at odds with two others;
a maximum likewise. Any three values that are at odds can be put in an order for which one of them is
less than their minimum, and in one for which one of them is greater than their maximum. -/
theorem extremes_unless_atOdds :
    (∀ args, candidates args ≠ [] →
      (∃ r ∈ candidates args, minimum.apply args = .ok r ∧
        ∀ c ∈ candidates args, c.compare? r = some .lt → Involved (candidates args) c) ∧
      ∃ r ∈ candidates args, maximum.apply args = .ok r ∧
        ∀ c ∈ candidates args, c.compare? r = some .gt → Involved (candidates args) c) ∧
    ∀ x t y, AtOdds x t y →
      (∃ args, args.Perm [x, t, y] ∧ ∃ r, minimum.apply args = .ok r ∧
        ∃ c ∈ args, c.compare? r = some .lt) ∧
      ∃ args, args.Perm [x, t, y] ∧ ∃ r, maximum.apply args = .ok r ∧
        ∃ c ∈ args, c.compare? r = some .gt := by
  have hlt : Ordering.lt ≠ .eq := by decide
  have hgt : Ordering.gt ≠ .eq := by decide
  exact ⟨fun args h => ⟨extreme_spec hlt h, extreme_spec hgt h⟩,
    fun x t y h => ⟨exists_extreme_passed hlt h, exists_extreme_passed hgt h⟩⟩

/-- Numbers are not at odds, whether they are texts or not; but by text, `1a` stands between ten and
nine. -/
theorem extremes_unless_atOdds_nine_ten :
    (candidates [.array [.positional (.number 9), .positional (.text "10")]] ≠ [] ∧
      ∃ r ∈ [Value.number 9, .text "10"],
        minimum.apply [.array [.positional (.number 9), .positional (.text "10")]] = .ok r ∧
        ∀ c ∈ [Value.number 9, .text "10"], c.compare? r ≠ some .lt) ∧
    AtOdds (.number 10) (.text "1a") (.number 9) ∧
      ∃ args, args.Perm [.number 10, .text "1a", .number 9] ∧ ∃ r, minimum.apply args = .ok r ∧
        ∃ c ∈ args, c.compare? r = some .lt := by
  have hne : candidates [.array [.positional (.number 9), .positional (.text "10")]] ≠ [] := by
    decide
  obtain ⟨r, hr, hmin, hpass⟩ := (extremes_unless_atOdds.1 _ hne).1
  have hnumbers : ∀ v ∈ [Value.number 9, .text "10"], v.number? ≠ none := by decide +kernel
  have hodds : AtOdds (.number 10) (.text "1a") (.number 9) :=
    ⟨by decide +kernel, by decide +kernel, by decide +kernel, .inl (by decide +kernel)⟩
  exact ⟨⟨hne, r, hr, hmin, fun c hc hless => not_involved_of_numbers hnumbers (hpass c hc hless)⟩,
    hodds, (extremes_unless_atOdds.2 _ _ _ hodds).1⟩

/-- The minimum of nine, ten and `1a` is `1a`, and ten is less; it is the maximum as well, and nine is
greater. -/
theorem not_extreme_nine_ten :
    (¬ ∃ r, minimum.apply [.number 9, .number 10, .text "1a"] = .ok r ∧
      ∀ c ∈ [Value.number 9, .number 10, .text "1a"], c.compare? r ≠ some .lt) ∧
    ¬ ∃ r, maximum.apply [.number 9, .number 10, .text "1a"] = .ok r ∧
      ∀ c ∈ [Value.number 9, .number 10, .text "1a"], c.compare? r ≠ some .gt := by
  have hmin : minimum.apply [.number 9, .number 10, .text "1a"] = .ok (.text "1a") := rfl
  have hmax : maximum.apply [.number 9, .number 10, .text "1a"] = .ok (.text "1a") := rfl
  constructor
  · rintro ⟨r, hr, hnone⟩
    cases hmin.symm.trans hr
    exact hnone (.number 10) (by simp) (by decide +kernel)
  · rintro ⟨r, hr, hnone⟩
    cases hmax.symm.trans hr
    exact hnone (.number 9) (by simp) (by decide +kernel)

end Function

end Formula
