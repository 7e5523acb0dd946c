import Formula.Value.Coercion
import Formula.Proofs.Finiteness
import Formula.Proofs.Tiling

/-! The grammar of numerals. Main statement: text passes for a number exactly if it is a numeral of
the grammar, a scan takes the longest beginning that is a numeral without sign and exponent, and
both read it as the same number. -/
namespace Formula

namespace Numeral

open Shortest (Rounds rounds_self)

/-- Digits, at least one. -/
def IsDigits (w : List Char) : Prop := w ≠ [] ∧ ∀ c ∈ w, isDigit c = true

/-- Digits that may have a point behind, among or in front of them. -/
inductive IsMantissa : List Char → Prop
  | whole {w} (hw : IsDigits w) : IsMantissa w
  | pointed {w f} (hw : IsDigits w) (hf : ∀ c ∈ f, isDigit c = true) : IsMantissa (w ++ '.' :: f)
  | fraction {f} (hf : IsDigits f) : IsMantissa ('.' :: f)

/-- One sign or none. -/
inductive IsSign : List Char → Prop
  | none : IsSign []
  | plus : IsSign ['+']
  | minus : IsSign ['-']

/-- A power of ten, or nothing. -/
inductive IsExponent : List Char → Prop
  | none : IsExponent []
  | some {letter s w} (hl : letter = 'e' ∨ letter = 'E') (hs : IsSign s) (hw : IsDigits w) :
      IsExponent (letter :: (s ++ w))

inductive IsNumeral : List Char → Prop
  | intro {s w e} (hs : IsSign s) (hw : IsMantissa w) (he : IsExponent e) :
      IsNumeral (s ++ (w ++ e))

variable {cs w rest : List Char} {c : Char}

theorem IsDigits.exists_cons (h : IsDigits w) : ∃ c cs, w = c :: cs ∧ isDigit c = true := by
  obtain ⟨c, cs, rfl⟩ := List.exists_cons_of_ne_nil h.1
  exact ⟨c, cs, rfl, h.2 c List.mem_cons_self⟩

theorem not_sign_of_isDigit (h : isDigit c = true) : c ≠ '-' ∧ c ≠ '+' := by
  constructor <;> rintro rfl <;> exact absurd h (by decide)

/-- The mantissas of the grammar are the spellings of those that are cut off. -/
theorem isMantissa_iff :
    IsMantissa w ↔ ∃ m : Mantissa,
      w = m.spelling ∧ (∀ c ∈ m.digits, isDigit c = true) ∧ m.digits ≠ [] := by
  constructor
  · rintro (⟨hne, hw⟩ | ⟨⟨hne, hw⟩, hf⟩ | ⟨hne, hf⟩)
    · exact ⟨⟨w, none⟩, by simp [Mantissa.spelling], by simpa [Mantissa.digits] using hw,
        by simpa [Mantissa.digits] using hne⟩
    · rename_i w f
      refine ⟨⟨w, some f⟩, rfl, fun c hc => ?_, by simp [Mantissa.digits, hne]⟩
      exact (List.mem_append.mp hc).elim (hw c) (hf c)
    · rename_i f
      exact ⟨⟨[], some f⟩, rfl, hf, hne⟩
  · rintro ⟨⟨w, fraction⟩, rfl, hd, hne⟩
    cases fraction with
    | none =>
      rw [Mantissa.spelling, List.append_nil]
      exact .whole (by simpa [IsDigits, Mantissa.digits] using And.intro hne hd)
    | some f =>
      have hf : ∀ c ∈ f, isDigit c = true := fun c hc => hd c (List.mem_append_right _ hc)
      cases w with
      | nil => exact .fraction ⟨hne, hf⟩
      | cons d w =>
        exact .pointed ⟨List.cons_ne_nil d w, fun c hc => hd c (List.mem_append_left _ hc)⟩ hf

/-- A mantissa begins with a digit, or with a point and a digit. -/
theorem IsMantissa.head (h : IsMantissa w) :
    ∃ c tail, w = c :: tail ∧
      (isDigit c = true ∨ c = '.' ∧ ∃ d, tail.head? = some d ∧ isDigit d = true) := by
  cases h with
  | whole hw =>
    obtain ⟨c, cs, rfl, hc⟩ := hw.exists_cons
    exact ⟨c, cs, rfl, .inl hc⟩
  | pointed hw =>
    obtain ⟨c, cs, rfl, hc⟩ := hw.exists_cons
    exact ⟨c, _, rfl, .inl hc⟩
  | fraction hf =>
    obtain ⟨d, cs, rfl, hd⟩ := hf.exists_cons
    exact ⟨'.', _, rfl, .inr ⟨rfl, d, rfl, hd⟩⟩

theorem IsMantissa.not_sign (h : IsMantissa w) (hc : (w ++ rest).head? = some c) :
    c ≠ '-' ∧ c ≠ '+' := by
  obtain ⟨d, tail, rfl, hd⟩ := h.head
  obtain rfl := Option.some.inj hc
  rcases hd with hd | ⟨rfl, -⟩
  · exact not_sign_of_isDigit hd
  · decide

/-- There is at most one point in a mantissa, and all else is digits. -/
theorem IsMantissa.digit_or_point (h : IsMantissa w) :
    w.count '.' ≤ 1 ∧ ∀ c ∈ w, isDigit c = true ∨ c = '.' := by
  have hcount : ∀ {f : List Char}, (∀ c ∈ f, isDigit c = true) → f.count '.' = 0 := fun hf =>
    List.count_eq_zero.mpr fun hpoint => absurd (hf _ hpoint) (by decide)
  cases h with
  | whole hw => exact ⟨(hcount hw.2).trans_le (Nat.zero_le 1), fun c hc => .inl (hw.2 c hc)⟩
  | pointed hw hf =>
    refine ⟨by simp [hcount hw.2, hcount hf], fun c hc => ?_⟩
    rcases List.mem_append.mp hc with hc | hc
    · exact .inl (hw.2 c hc)
    · exact (List.mem_cons.mp hc).symm.imp_left (hf c)
  | fraction hf =>
    exact ⟨by simp [hcount hf.2], fun c hc => (List.mem_cons.mp hc).symm.imp_left (hf.2 c)⟩

/-! ### Texts that pass for numbers -/

theorem isSign_sign (cs : List Char) : ∃ s, IsSign s ∧ cs = s ++ (sign cs).2 := by
  unfold sign
  split
  · exact ⟨_, .minus, rfl⟩
  · exact ⟨_, .plus, rfl⟩
  · exact ⟨_, .none, rfl⟩

theorem sign_of_unsigned (h : ∀ c, cs.head? = some c → c ≠ '-' ∧ c ≠ '+') :
    sign cs = (false, cs) := by
  unfold sign
  split
  · exact absurd rfl (h _ rfl).1
  · exact absurd rfl (h _ rfl).2
  · rfl

/-- A sign is taken off what does not begin with another. -/
theorem IsSign.sign_append (h : IsSign w) (hrest : ∀ c, rest.head? = some c → c ≠ '-' ∧ c ≠ '+') :
    (sign (w ++ rest)).2 = rest := by
  cases h with
  | plus | minus => rfl
  | none => rw [List.nil_append, sign_of_unsigned hrest]

theorem exponentPasses_iff :
    exponentPasses w = true ↔ ∃ s v, IsSign s ∧ IsDigits v ∧ w = s ++ v := by
  constructor
  · intro h
    obtain ⟨s, hs, hw⟩ := isSign_sign w
    exact ⟨s, _, hs, by simpa [exponentPasses, IsDigits] using h, hw⟩
  · rintro ⟨s, v, hs, hv, rfl⟩
    obtain ⟨d, ds, rfl, hd⟩ := hv.exists_cons
    have hsign : (sign (s ++ d :: ds)).2 = d :: ds := hs.sign_append fun c hc => by
      obtain rfl := Option.some.inj hc
      exact not_sign_of_isDigit hd
    simp [exponentPasses, hsign, List.all_eq_true.mpr hv.2]

theorem isExponent_cons_iff :
    IsExponent (c :: w) ↔ (c = 'e' ∨ c = 'E') ∧ exponentPasses w = true := by
  rw [exponentPasses_iff]
  constructor
  · rintro ⟨⟩
    rename_i s v hs hv hl
    exact ⟨hl, s, v, hs, hv, rfl⟩
  · rintro ⟨hl, s, v, hs, hv, rfl⟩
    exact .some hl hs hv

theorem isSome_exponent?_iff : (exponent? cs).isSome = true ↔ IsExponent cs := by
  cases cs with
  | nil => exact iff_of_true rfl .none
  | cons c cs =>
    rw [isExponent_cons_iff, exponent?]
    by_cases hletter : c = 'e' ∨ c = 'E'
    · simp [hletter, exponentPasses]
    · simp [hletter]

/-- The decimals that can be read are the numerals. -/
theorem isSome_decimal?_iff : (decimal? cs).isSome = true ↔ IsNumeral cs := by
  constructor
  · intro h
    obtain ⟨x, hx⟩ := Option.isSome_iff_exists.mp h
    simp only [decimal?, Option.bind_eq_bind, Option.bind_eq_some_iff] at hx
    obtain ⟨⟨m, e⟩, hcut, n, hn, -⟩ := hx
    obtain ⟨hbody, hdigits, hne, -⟩ := Mantissa.cut?_eq_some_iff.mp hcut
    obtain ⟨s, hs, hcs⟩ := isSign_sign cs
    rw [hcs, hbody]
    exact .intro hs (isMantissa_iff.mpr ⟨m, rfl, hdigits, hne⟩)
      (isSome_exponent?_iff.mp (Option.isSome_of_eq_some hn))
  · rintro ⟨hs, hw, he⟩
    rename_i s w e
    have hsign : (sign (s ++ (w ++ e))).2 = w ++ e :=
      hs.sign_append fun c hc => hw.not_sign hc
    obtain ⟨m, rfl, hdigits, hne⟩ := isMantissa_iff.mp hw
    have hcut : Mantissa.cut? (m.spelling ++ e) = some (m, e) := by
      refine Mantissa.cut?_eq_some_iff.mpr ⟨rfl, hdigits, hne, ?_⟩
      -- the letter of an exponent is neither a digit nor a point
      rintro c hc
      cases he with
      | none => cases hc
      | some hletter =>
        obtain rfl := Option.some.inj hc
        rcases hletter with rfl | rfl <;> exact ⟨by decide, fun _ => by decide⟩
    obtain ⟨n, hn⟩ := Option.isSome_iff_exists.mp (isSome_exponent?_iff.mpr he)
    simp [decimal?, hsign, hcut, hn]

/-! ### The check -/

/-- The counts are those of the digits and the points in a text that has nothing else. -/
theorem count?_eq_some_iff (d p : Nat) (n : Nat × Nat) :
    count? (d, p) w = some n ↔
      (∀ c ∈ w, isDigit c = true ∨ c = '.') ∧ n = (d + w.countP isDigit, p + w.count '.') := by
  have hpoint : isDigit '.' = false := by decide
  induction w generalizing d p with
  | nil =>
    rw [count?, Option.some.injEq, eq_comm]
    simp
  | cons c w ih =>
    rw [count?]
    split
    · rename_i hc
      have hne : c ≠ '.' := by
        rintro rfl
        rw [hpoint] at hc
        cases hc
      refine (ih (d + 1) p).trans ?_
      simp [hc, hne, Nat.add_assoc, Nat.add_comm 1]
    · rename_i hc
      split
      · rename_i hdot
        subst hdot
        refine (ih d (p + 1)).trans ?_
        simp [hpoint, Nat.add_assoc, Nat.add_comm 1]
      · rename_i hdot
        simp [hc, hdot]

theorem mantissaPasses_eq_true :
    mantissaPasses w = true ↔
      (∀ c ∈ w, isDigit c = true ∨ c = '.') ∧ (∃ c ∈ w, isDigit c = true) ∧ w.count '.' ≤ 1 := by
  rw [← List.countP_pos_iff, mantissaPasses]
  cases hn : count? (0, 0) w with
  | none =>
    refine iff_of_false Bool.noConfusion fun h => ?_
    rw [(count?_eq_some_iff 0 0 _).mpr ⟨h.1, rfl⟩] at hn
    cases hn
  | some n =>
    obtain ⟨hchars, rfl⟩ := (count?_eq_some_iff 0 0 n).mp hn
    rw [and_iff_right hchars, Nat.zero_add, Nat.zero_add, Bool.and_eq_true, bne_iff_ne,
      decide_eq_true_eq, Nat.pos_iff_ne_zero]

/-- A text with one point is parted by it. -/
theorem IsMantissa.of_point {f : List Char} (hw : ∀ c ∈ w, isDigit c = true)
    (hf : ∀ c ∈ f, isDigit c = true) (hne : w ≠ [] ∨ f ≠ []) : IsMantissa (w ++ '.' :: f) := by
  by_cases hnil : w = []
  · subst hnil
    exact .fraction ⟨hne.resolve_left (fun h => h rfl), hf⟩
  · exact .pointed ⟨hnil, hw⟩ hf

/-- What is counted is a mantissa if it has a digit and not two points. -/
theorem mantissaPasses_iff : mantissaPasses w = true ↔ IsMantissa w := by
  rw [mantissaPasses_eq_true]
  constructor
  · rintro ⟨hchars, ⟨d, hd, hdigit⟩, hpoints⟩
    have hall : ∀ {v : List Char}, v ⊆ w → '.' ∉ v → ∀ c ∈ v, isDigit c = true :=
      fun hv hnone c hc => (hchars c (hv hc)).resolve_right fun h => hnone (h ▸ hc)
    by_cases hpoint : '.' ∈ w
    · obtain ⟨a, b, rfl⟩ := List.append_of_mem hpoint
      simp only [List.count_append, List.count_cons_self] at hpoints
      have ha : '.' ∉ a := List.count_eq_zero.mp (by omega)
      have hb : '.' ∉ b := List.count_eq_zero.mp (by omega)
      refine .of_point (hall (by simp) ha) (hall (by simp) hb) ?_
      by_contra hnil
      rw [not_or, not_ne_iff, not_ne_iff] at hnil
      obtain rfl : d = '.' := by simpa [hnil] using hd
      exact absurd hdigit (by decide)
    · exact .whole ⟨List.ne_nil_of_mem hd, hall (List.Subset.refl w) hpoint⟩
  · intro h
    obtain ⟨hpoints, hchars⟩ := h.digit_or_point
    obtain ⟨c, tail, rfl, hc⟩ := h.head
    refine ⟨hchars, ?_, hpoints⟩
    rcases hc with hc | ⟨-, d, hd, hdigit⟩
    · exact ⟨c, List.mem_cons_self, hc⟩
    · exact ⟨d, List.mem_cons_of_mem c (List.mem_of_mem_head? hd), hdigit⟩

theorem isLetter_iff : isLetter c = true ↔ c = 'e' ∨ c = 'E' := by
  simp [isLetter]

/-- No letter is part of a mantissa. -/
theorem IsMantissa.not_isLetter (h : IsMantissa w) (hc : c ∈ w) : isLetter c = false := by
  rw [← Bool.not_eq_true, isLetter_iff]
  rcases h.digit_or_point.2 c hc with hdigit | rfl
  · rintro (rfl | rfl) <;> exact absurd hdigit (by decide)
  · decide

/-- The steps of the check are those of the grammar. -/
theorem passes_iff : passes cs = true ↔ IsNumeral cs := by
  constructor
  · intro h
    obtain ⟨s, hs, hbody⟩ := isSign_sign cs
    unfold passes at h
    rw [hbody]
    generalize (sign cs).2 = body at h ⊢
    dsimp only at h
    split at h
    · have hnumeral := IsNumeral.intro hs (mantissaPasses_iff.mp h) .none
      rwa [List.append_nil] at hnumeral
    · rename_i letter exponent hdrop
      rw [Bool.and_eq_true] at h
      have hletter : isLetter letter = true := by
        simpa using head?_dropWhile_stop (congrArg List.head? hdrop)
      have hsplit := List.takeWhile_append_dropWhile (p := fun c => !isLetter c) (l := body)
      rw [hdrop] at hsplit
      rw [← hsplit]
      exact .intro hs (mantissaPasses_iff.mp h.2)
        (isExponent_cons_iff.mpr ⟨isLetter_iff.mp hletter, h.1⟩)
  · rintro ⟨hs, hw, he⟩
    rename_i s w e
    have hsign : (sign (s ++ (w ++ e))).2 = w ++ e := hs.sign_append fun c hc => hw.not_sign hc
    have hmantissa := mantissaPasses_iff.mpr hw
    have hplain : ∀ c ∈ w, (!isLetter c) = true := fun c hc => by
      rw [hw.not_isLetter hc]
      rfl
    unfold passes
    cases e with
    | nil =>
      have hstop : ∀ c, [].head? = some c → (!isLetter c) = false := by
        rintro c ⟨⟩
      obtain ⟨-, hdrop⟩ := takeWhile_append_stop hplain hstop
      simp only [hsign, hdrop]
      rwa [List.append_nil]
    | cons letter exponent =>
      obtain ⟨hletter, hexponent⟩ := isExponent_cons_iff.mp he
      have hstop : ∀ c, (letter :: exponent).head? = some c → (!isLetter c) = false := by
        rintro c ⟨⟩
        rw [isLetter_iff.mpr hletter]
        rfl
      obtain ⟨htake, hdrop⟩ := takeWhile_append_stop hplain hstop
      simp only [hsign, htake, hdrop, hexponent, hmantissa, Bool.and_self]

/-- The check lets through what is read as a decimal, and nothing else. -/
theorem read?_eq (cs : List Char) : read? cs = decimal? cs := by
  rw [read?]
  split
  · rfl
  · rename_i hnot
    rw [passes_iff, ← isSome_decimal?_iff, Bool.not_eq_true, Option.isSome_eq_false_iff,
      Option.isNone_iff_eq_none] at hnot
    exact hnot.symm

/-- What can be read is what the grammar says. -/
theorem isSome_read?_iff : (read? cs).isSome = true ↔ IsNumeral cs := by
  rw [read?_eq, isSome_decimal?_iff]

/-- Digits with a point among them are a numeral of the value that a scan gives them, also behind a
minus. -/
theorem read?_spelling {m : Mantissa} (hm : m.Proper) (negative : Bool) :
    read? ((if negative then ['-'] else []) ++ m.spelling) =
      some (Double.withSign negative (m.value 0)) := by
  have hsign : sign ((if negative then ['-'] else []) ++ m.spelling) = (negative, m.spelling) := by
    cases negative with
    | true => rfl
    | false =>
      have hmantissa := isMantissa_iff.mpr ⟨m, rfl, hm.digits, hm.nonempty⟩
      refine sign_of_unsigned fun c hc => ?_
      have hhead : (m.spelling ++ []).head? = some c := by rwa [List.append_nil]
      exact hmantissa.not_sign hhead
  simp [read?_eq, decimal?, hsign, hm.cut?_spelling, exponent?]

/-- What is read is the double nearest to what the numeral spells. -/
theorem nearest_read? {x : Float} (h : read? cs = some x) :
    ∃ m rest e, (sign cs).2 = Mantissa.spelling m ++ rest ∧ m.Proper ∧ exponent? rest = some e ∧
      (Double.view x).Nearest (sign cs).1 (m.exact * 10 ^ e) := by
  rw [read?_eq] at h
  simp only [decimal?, Option.bind_eq_bind, Option.bind_eq_some_iff] at h
  obtain ⟨⟨m, rest⟩, hcut, e, he, hx⟩ := h
  cases hx
  obtain ⟨hbody, hdigits, hne, -⟩ := Mantissa.cut?_eq_some_iff.mp hcut
  exact ⟨m, rest, e, hbody, ⟨hdigits, hne⟩, he, (m.nearest_value e).withSign _⟩

/-- The plain text of a finite number is read as that number. -/
theorem read?_write_plain {x : Float} (h : Double.IsFinite x) :
    read? (Layout.plain.write x).toList = some x := by
  obtain ⟨negative, m, q, hx⟩ := h
  have hc := Double.canonical_of_view hx
  obtain ⟨a, ha, hpa, hexact⟩ := Layout.magnitudeText_plain hc
  have hrounds : Rounds m q (a.exact * 10 ^ (0 : Int)) := by
    rw [zpow_zero, mul_one]
    split at hexact
    · rename_i hzero
      subst hzero
      have hself := rounds_self 0 q
      rwa [Nat.cast_zero, zero_mul, ← hexact] at hself
    · exact hexact
  have hnearest := (a.nearest_value 0).withSign negative
  rw [Layout.toList_write_plain, hx, Layout.plainChars, ha, read?_spelling hpa]
  refine congrArg some (Double.view_injective ?_)
  rw [hx]
  exact hnearest.unique (.finite hc hrounds)

end Numeral

namespace Lexeme

open Numeral

variable {cs w : List Char} {x : Cut}

/-- A number is taken off where a mantissa begins. -/
theorem number?_eq_none_iff : number? cs = none ↔ ∀ w, w <+: cs → ¬ IsMantissa w := by
  constructor
  · rintro h w ⟨rest, rfl⟩ hw
    obtain ⟨c, tail, rfl, hc⟩ := hw.head
    rw [number?, Option.map_eq_none_iff, List.cons_append, Mantissa.cut?_cons_eq_none_iff] at h
    rcases hc with hc | ⟨rfl, d, hd, hdigit⟩
    · rw [h.1] at hc
      cases hc
    · rw [h.2 rfl d (by simp [hd])] at hdigit
      cases hdigit
  · intro h
    rw [number?, Option.map_eq_none_iff, Option.eq_none_iff_forall_ne_some]
    rintro ⟨m, rest⟩ hm
    obtain ⟨rfl, hdigits, hne, -⟩ := Mantissa.cut?_eq_some_iff.mp hm
    exact h m.spelling (List.prefix_append _ _) (isMantissa_iff.mpr ⟨m, rfl, hdigits, hne⟩)

/-- No mantissa is longer than the one that is taken off. -/
theorem length_le_of_number? (hx : number? cs = some x) (hw : w <+: cs) (hm : IsMantissa w) :
    w.length ≤ x.spelling.length := by
  obtain ⟨⟨m, rest⟩, hcut, rfl⟩ := Option.map_eq_some_iff.mp hx
  obtain ⟨rfl, -, -, hrest⟩ := Mantissa.cut?_eq_some_iff.mp hcut
  by_contra hlt
  rw [Nat.not_le] at hlt
  obtain ⟨more, rfl⟩ :=
    List.prefix_of_prefix_length_le (List.prefix_append m.spelling rest) hw hlt.le
  obtain ⟨c, more, rfl⟩ : ∃ c tail, more = c :: tail := by
    refine List.exists_cons_of_ne_nil fun hnil => ?_
    rw [hnil, List.append_nil] at hlt
    exact hlt.false
  -- What stands behind is no digit, so it is a second point.
  obtain ⟨tail, htail⟩ := (List.prefix_append_right_inj m.spelling).mp hw
  obtain ⟨hcount, hchars⟩ := hm.digit_or_point
  obtain ⟨hdigit, hpoint⟩ := hrest c (by rw [← htail]; rfl)
  rcases hchars c (by simp) with hc | rfl
  · rw [hdigit] at hc
    cases hc
  · obtain ⟨f, hf⟩ := Option.ne_none_iff_exists'.mp fun hnone => hpoint hnone rfl
    simp [Mantissa.spelling, hf] at hcount
    omega

/-- Nothing that comes first takes a number. -/
theorem cut?_of_number? (hx : number? cs = some x) : cut? cs = some x := by
  have hne : number? cs ≠ none := by simp [hx]
  obtain ⟨c, tail, rfl⟩ : ∃ c tail, cs = c :: tail := by
    refine List.exists_cons_of_ne_nil fun hnil => ?_
    rw [hnil] at hx
    cases hx
  have hc : isDigit c = true ∨ c = '.' := by
    rw [number?, Ne, Option.map_eq_none_iff, Mantissa.cut?_cons_eq_none_iff] at hne
    by_contra hnot
    rw [not_or, Bool.not_eq_true] at hnot
    exact hne ⟨hnot.1, fun hpoint => absurd hpoint hnot.2⟩
  have hsymbol : singleSymbol? c = none := by
    unfold singleSymbol?
    split <;> first | rfl | exact absurd hc (by decide)
  rw [cut?_eq, symbol?_cons_eq_none_iff.mpr hsymbol, hx]
  rfl

end Lexeme

/-- Numerals in text and in a source. Text passes for a number exactly if it is a numeral: a sign or
none, digits that may have a point behind, among or in front of them, an exponent or none, and
nothing around. A scan takes a number off a source exactly where digits with such a point begin,
takes the most that it can, and the value of its token is the number that this text passes for. -/
theorem numerals_agree :
    (∀ s : String, (Value.text s).number?.isSome = true ↔ Numeral.IsNumeral s.toList) ∧
      (∀ cs, Lexeme.number? cs = none ↔ ∀ w, w <+: cs → ¬ Numeral.IsMantissa w) ∧
      ∀ cs x, Lexeme.number? cs = some x →
        Lexeme.cut? cs = some x ∧ x.spelling <+: cs ∧ Numeral.IsMantissa x.spelling ∧
          (∀ w, w <+: cs → Numeral.IsMantissa w → w.length ≤ x.spelling.length) ∧
          ∃ v, (Value.text (String.ofList x.spelling)).number? = some v ∧
            ∀ previous s, ∃ inserted,
              Scan.tokensOf previous x.lexeme s x.rest =
                inserted ++ [⟨.number, .value (.number v), s⟩] := by
  refine ⟨fun s => Numeral.isSome_read?_iff, fun cs => Lexeme.number?_eq_none_iff,
    fun cs x hx => ⟨Lexeme.cut?_of_number? hx, ⟨x.rest, (Lexeme.number?_of hx).2⟩, ?_,
      fun w hw hm => Lexeme.length_le_of_number? hx hw hm, ?_⟩⟩
  all_goals
    obtain ⟨⟨m, rest⟩, hcut, rfl⟩ := Option.map_eq_some_iff.mp hx
    obtain ⟨-, hdigits, hne, -⟩ := Numeral.Mantissa.cut?_eq_some_iff.mp hcut
  · exact Numeral.isMantissa_iff.mpr ⟨m, rfl, hdigits, hne⟩
  · refine ⟨m.value 0, ?_, fun previous s => ⟨_, rfl⟩⟩
    rw [Value.number?, String.toList_ofList]
    exact Numeral.read?_spelling ⟨hdigits, hne⟩ false

/-- No sign is part of a lexeme, nor is a second point, nor an exponent. -/
theorem numerals_agree_twoPoints :
    ¬ Numeral.IsNumeral "1.2.3".toList ∧ ¬ Numeral.IsNumeral "++1".toList ∧
      ∃ x v, Lexeme.number? "1.2.3".toList = some x ∧ x.spelling = "1.2".toList ∧
        (∀ w, w <+: "1.2.3".toList → Numeral.IsMantissa w → w.length ≤ 3) ∧
        (Value.text "1.2").number? = some v := by
  obtain ⟨htext, -, hscan⟩ := numerals_agree
  have hx : Lexeme.number? "1.2.3".toList =
      some ⟨.number (Numeral.Mantissa.value ⟨['1'], some ['2']⟩ 0), ['1', '.', '2'], ['.', '3']⟩ :=
    rfl
  obtain ⟨-, -, -, hlongest, v, hv, -⟩ := hscan _ _ hx
  exact ⟨mt (htext "1.2.3").mpr (by decide), mt (htext "++1").mpr (by decide), _, v, hx, rfl,
    hlongest, hv⟩

end Formula
