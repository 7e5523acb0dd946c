import Formula.Proofs.Scanning

/-! Longest match: a lexeme is decided by its own characters and by the first one behind it. Main
statement: the text behind a lexeme may be changed, as long as it begins as before or with a
character that no lexeme goes on with. -/
namespace Formula

/-- A run of characters ends in front of the first other one. -/
theorem takeWhile_append_stop {p : Char → Bool} {w rest : List Char} (hw : ∀ c ∈ w, p c = true)
    (hrest : ∀ c, rest.head? = some c → p c = false) :
    (w ++ rest).takeWhile p = w ∧ (w ++ rest).dropWhile p = rest := by
  have hstop : rest.takeWhile p = [] ∧ rest.dropWhile p = rest := by
    cases rest with
    | nil => simp
    | cons c rest => simp [hrest c rfl]
  rw [List.takeWhile_append_of_pos hw, List.dropWhile_append_of_pos hw, hstop.1, hstop.2]
  simp

theorem takeWhile_ne_append {q : Char} {w : List Char} (hw : q ∉ w) (rest : List Char) :
    (w ++ q :: rest).takeWhile (· != q) = w ∧ (w ++ q :: rest).dropWhile (· != q) = q :: rest := by
  refine takeWhile_append_stop (fun c hc => ?_) ?_
  · simpa using ne_of_mem_of_not_mem hc hw
  · rintro _ ⟨⟩
    simp

theorem head?_dropWhile_stop {p : Char → Bool} {cs : List Char} {c : Char}
    (h : (cs.dropWhile p).head? = some c) : p c = false := by
  have hc := List.head?_dropWhile_not p cs
  rw [h] at hc
  simpa using hc

namespace Numeral.Mantissa

variable {cs rest : List Char} {m : Mantissa}

/-- What is cut off is the longest beginning that is a mantissa. -/
theorem cut?_eq_some_iff :
    cut? cs = some (m, rest) ↔
      cs = m.spelling ++ rest ∧ (∀ c ∈ m.digits, isDigit c = true) ∧ m.digits ≠ [] ∧
        ∀ c, rest.head? = some c → isDigit c = false ∧ (m.fraction = none → c ≠ '.') := by
  constructor
  · intro h
    obtain ⟨hcs, hne⟩ := cut?_eq_some h
    refine ⟨hcs.symm, Lexeme.isDigit_of_cut? h, hne, fun c hc => ?_⟩
    unfold cut? at h
    split at h
    · dsimp only at h
      split at h <;> cases h
      exact ⟨head?_dropWhile_stop hc, by rintro ⟨⟩⟩
    · rename_i hpoint
      dsimp only at h
      split at h <;> cases h
      refine ⟨head?_dropWhile_stop hc, ?_⟩
      rintro - rfl
      obtain ⟨tl, htl⟩ := List.head?_eq_some_iff.mp hc
      exact hpoint tl htl
  · rintro ⟨rfl, hd, hm, hrest⟩
    obtain ⟨whole, fraction⟩ := m
    have hwhole : ∀ c ∈ whole, isDigit c = true := fun c hc => hd c (List.mem_append_left _ hc)
    have hne : (Mantissa.mk whole fraction).digits.isEmpty = false := by simpa using hm
    cases fraction with
    | none =>
      obtain ⟨htake, hdrop⟩ := takeWhile_append_stop hwhole fun c hc => (hrest c hc).1
      simp only [cut?, spelling, List.append_nil, htake, hdrop, hne]
      split
      · rename_i tl htl
        exact absurd rfl ((hrest '.' (by simp)).2 rfl)
      · rfl
    | some fraction =>
      have hfraction : ∀ c ∈ fraction, isDigit c = true :=
        fun c hc => hd c (List.mem_append_right _ hc)
      have hpoint : ∀ c, ('.' :: (fraction ++ rest)).head? = some c → isDigit c = false := by
        rintro _ ⟨⟩
        decide
      obtain ⟨htake, hdrop⟩ := takeWhile_append_stop hwhole hpoint
      obtain ⟨htake', hdrop'⟩ := takeWhile_append_stop hfraction fun c hc => (hrest c hc).1
      simp [cut?, spelling, htake, hdrop, htake', hdrop', hne]

/-- Nothing is cut off where neither a digit stands nor a point in front of a digit. -/
theorem cut?_cons_eq_none_iff {c : Char} :
    cut? (c :: cs) = none ↔
      isDigit c = false ∧ (c = '.' → ∀ d, cs.head? = some d → isDigit d = false) := by
  have hpoint : isDigit '.' = false := by decide
  cases hc : isDigit c with
  | true =>
    refine iff_of_false (fun h => ?_) (by simp)
    unfold cut? at h
    split at h <;> simp [hc, digits] at h
  | false =>
    by_cases hdot : c = '.'
    · subst hdot
      cases cs with
      | nil => simp [cut?, hpoint, digits]
      | cons d cs => cases hd : isDigit d <;> simp [cut?, hpoint, digits, hd]
    · simp [cut?, hc, hdot, digits]

end Numeral.Mantissa

namespace Lexeme

theorem isWordCharacter_of_isDigit {c : Char} (h : Numeral.isDigit c = true) :
    isWordCharacter c = true := by
  simp only [Numeral.isDigit, Bool.and_eq_true, decide_eq_true_eq] at h
  have hhigh : c.toNat ≤ 57 := h.2
  have hdigit : c.isDigit = true := by
    simp only [Char.isDigit, Bool.and_eq_true, decide_eq_true_eq]
    exact h
  simp [isWordCharacter, Unicode.isAlphanumeric_of_ascii (Nat.lt_of_le_of_lt hhigh (by decide)),
    Char.isAlphanum, hdigit]

variable {c d : Char} {cs rest' : List Char} {x : Cut}

/-- A character that no lexeme goes on with, unless it stands between quotes or braces. -/
def Separates (c : Char) : Prop := isWordCharacter c = false ∧ c ≠ '>' ∧ c ≠ '|' ∧ c ≠ '='

/-- The second text begins like the first one, or with a character that separates. -/
def MayFollow (rest rest' : List Char) : Prop :=
  ∀ c, rest'.head? = some c → rest.head? = some c ∨ Separates c

theorem MayFollow.of_head {p : Char → Prop} {rest : List Char} (h : MayFollow rest rest')
    (hrest : ∀ c, rest.head? = some c → p c) (hp : ∀ c, Separates c → p c) :
    ∀ c, rest'.head? = some c → p c :=
  fun c hc => (h c hc).elim (hrest c) (hp c)

theorem Separates.isDigit (h : Separates c) : Numeral.isDigit c = false := by
  by_contra hd
  rw [Bool.not_eq_false] at hd
  exact absurd (isWordCharacter_of_isDigit hd) (by simp [h.1])

theorem Separates.ne_point (h : Separates c) : c ≠ '.' := by
  rintro rfl
  have hpoint : isWordCharacter '.' = true := by decide +kernel
  rw [h.1] at hpoint
  cases hpoint

theorem Separates.doubleSymbol? (h : Separates d) (c : Char) : doubleSymbol? c d = none := by
  obtain ⟨-, h₁, h₂, h₃⟩ := h
  unfold Lexeme.doubleSymbol?
  split <;> simp_all

theorem doubleSymbol?_eq_none (h : singleSymbol? c = none) (d : Char) :
    doubleSymbol? c d = none := by
  unfold doubleSymbol?
  split <;> first | rfl | cases h

/-- Whether a text begins with a symbol depends on its first character alone. -/
theorem symbol?_cons_eq_none_iff : symbol? (c :: cs) = none ↔ singleSymbol? c = none := by
  cases cs with
  | nil => simp [symbol?]
  | cons d cs =>
    cases hs : singleSymbol? c with
    | none => simp [symbol?, doubleSymbol?_eq_none hs, hs]
    | some k => cases hd : doubleSymbol? c d <;> simp [symbol?, hd, hs]

theorem symbol?_congr (h : symbol? cs = some x) (hr : MayFollow x.rest rest') :
    symbol? (x.spelling ++ rest') = some { x with rest := rest' } := by
  -- A symbol of one character is not the beginning of a longer one.
  have single : ∀ {c k}, singleSymbol? c = some k →
      (∀ d, rest'.head? = some d → doubleSymbol? c d = none) →
      symbol? (c :: rest') = some ⟨.symbol k, [c], rest'⟩ := by
    intro c k hk hd
    cases rest' with
    | nil => simp [symbol?, hk]
    | cons d rest' => simp [symbol?, hk, hd d rfl]
  unfold symbol? at h
  split at h
  · cases h
  · obtain ⟨k, hk, rfl⟩ := Option.map_eq_some_iff.mp h
    exact single hk (hr.of_head (by simp) fun d hd => hd.doubleSymbol? _)
  · rename_i c d rest
    split at h
    · rename_i k hk
      cases h
      simp [symbol?, hk]
    · rename_i hd
      obtain ⟨k, hk, rfl⟩ := Option.map_eq_some_iff.mp h
      refine single hk (hr.of_head ?_ fun d hd => hd.doubleSymbol? _)
      rintro _ ⟨⟩
      exact hd

theorem number?_congr (h : number? cs = some x) (hr : MayFollow x.rest rest') :
    number? (x.spelling ++ rest') = some { x with rest := rest' } := by
  obtain ⟨⟨m, rest⟩, hm, rfl⟩ := Option.map_eq_some_iff.mp h
  obtain ⟨-, hd, hne, hrest⟩ := Numeral.Mantissa.cut?_eq_some_iff.mp hm
  have hm' : Numeral.Mantissa.cut? (m.spelling ++ rest') = some (m, rest') :=
    Numeral.Mantissa.cut?_eq_some_iff.mpr ⟨rfl, hd, hne,
      hr.of_head hrest fun c hc => ⟨hc.isDigit, fun _ => hc.ne_point⟩⟩
  exact Option.map_eq_some_iff.mpr ⟨_, hm', rfl⟩

/-- A text that does not begin with a number does not begin to do so. -/
theorem number?_eq_none_congr {w rest : List Char} (hw : w ≠ []) (h : number? (w ++ rest) = none)
    (hr : MayFollow rest rest') : number? (w ++ rest') = none := by
  obtain ⟨c, w, rfl⟩ := List.exists_cons_of_ne_nil hw
  rw [number?, Option.map_eq_none_iff, List.cons_append,
    Numeral.Mantissa.cut?_cons_eq_none_iff] at h ⊢
  refine ⟨h.1, fun hc => ?_⟩
  cases w with
  | nil => exact hr.of_head (h.2 hc) fun d hd => hd.isDigit
  | cons d w => exact h.2 hc

theorem explicitWord?_congr {body : List Char} (h : explicitWord? body = some x) :
    word? (x.spelling ++ rest') = some { x with rest := rest' } := by
  unfold explicitWord? at h
  split at h
  · rename_i close rest hrest
    split at h
    · cases h
    · rename_i hw
      cases h
      obtain ⟨rfl, hbody⟩ := takeWhile_ne hrest
      obtain ⟨htake, hdrop⟩ := takeWhile_ne_append hbody rest'
      simp [word?, explicitWord?, htake, hdrop, hw]
  · cases h

theorem word?_congr (h : word? cs = some x) (hr : MayFollow x.rest rest') :
    word? (x.spelling ++ rest') = some { x with rest := rest' } := by
  unfold word? at h
  split at h
  · exact explicitWord?_congr h
  · dsimp only at h
    split at h
    · cases h
    · rename_i hw
      cases h
      have hword : ∀ c ∈ cs.takeWhile isWordCharacter, isWordCharacter c = true :=
        fun c hc => List.mem_takeWhile_imp hc
      obtain ⟨htake, hdrop⟩ := takeWhile_append_stop hword
        (hr.of_head (fun c hc => head?_dropWhile_stop hc) fun c hc => hc.1)
      generalize cs.takeWhile isWordCharacter = w at *
      dsimp only
      unfold word?
      split
      · -- A run of word characters does not begin with a dollar sign.
        rename_i body hbody
        have hdollar : isWordCharacter '$' = false := by decide +kernel
        rw [hbody, List.takeWhile_cons, hdollar] at htake
        simp [← htake] at hw
      · simp [htake, hdrop, hw]

theorem text?_head (h : text? (c :: cs) = some x) : isQuote c = true := by
  by_contra hc
  simp [text?, hc] at h

theorem text?_congr (h : text? cs = some x) :
    text? (x.spelling ++ rest') = some { x with rest := rest' } := by
  unfold text? at h
  split at h
  · cases h
  · rename_i quote body
    split at h
    · rename_i hquote
      split at h
      · rename_i close rest hrest
        cases h
        obtain ⟨rfl, hbody⟩ := takeWhile_ne hrest
        obtain ⟨htake, hdrop⟩ := takeWhile_ne_append hbody rest'
        simp [text?, hquote, htake, hdrop]
      · cases h
    · cases h

theorem cut?_eq (cs : List Char) :
    cut? cs = (symbol? cs).or ((number? cs).or ((word? cs).or ((text? cs).or (trivia? cs)))) := by
  simp only [cut?, HOrElse.hOrElse, OrElse.orElse, Option.orElse_eq_or]

/-- Where neither a symbol nor a number nor a name begins, there is text or trivia. -/
theorem cut?_cons_eq (hs : singleSymbol? c = none) (hw : isWordCharacter c = false) (hc : c ≠ '$') :
    cut? (c :: cs) = (text? (c :: cs)).or (trivia? (c :: cs)) := by
  have hsymbol : symbol? (c :: cs) = none := symbol?_cons_eq_none_iff.mpr hs
  have hnumber : number? (c :: cs) = none := by
    rw [number?, Option.map_eq_none_iff, Numeral.Mantissa.cut?_cons_eq_none_iff]
    refine ⟨?_, ?_⟩
    · by_contra hd
      rw [Bool.not_eq_false] at hd
      rw [isWordCharacter_of_isDigit hd] at hw
      cases hw
    · rintro rfl
      have hpoint : isWordCharacter '.' = true := by decide +kernel
      rw [hw] at hpoint
      cases hpoint
  have hword : word? (c :: cs) = none := by
    unfold word?
    split
    · rename_i heq
      exact absurd (List.cons.inj heq).1 hc
    · simp [hw]
  rw [cut?_eq, hsymbol, hnumber, hword]
  rfl

/-- A lexeme stays what it is whatever stands behind it, but for the first character there. -/
theorem cut?_congr (h : cut? cs = some x) (hx : x.lexeme ≠ .trivia) (hr : MayFollow x.rest rest') :
    cut? (x.spelling ++ rest') = some { x with rest := rest' } := by
  obtain ⟨hne, hcs⟩ := cut?_of h
  obtain ⟨c, w, hspelling⟩ := List.exists_cons_of_ne_nil hne
  have hsymbol : symbol? cs = none → symbol? (x.spelling ++ rest') = none := by
    rw [← hcs, hspelling, List.cons_append, List.cons_append, symbol?_cons_eq_none_iff,
      symbol?_cons_eq_none_iff]
    exact id
  have hnumber : number? cs = none → number? (x.spelling ++ rest') = none := by
    intro hnone
    rw [← hcs] at hnone
    exact number?_eq_none_congr hne hnone hr
  rw [cut?_eq] at h
  simp only [Option.or_eq_some_iff] at h
  rw [cut?_eq]
  rcases h with h | ⟨hs, h | ⟨hn, h | ⟨-, h | ⟨-, h⟩⟩⟩⟩
  · rw [symbol?_congr h hr]
    rfl
  · rw [hsymbol hs, number?_congr h hr]
    rfl
  · rw [hsymbol hs, hnumber hn, word?_congr h hr]
    rfl
  · have htext : text? (x.spelling ++ rest') = some { x with rest := rest' } := text?_congr h
    rw [← hcs, hspelling, List.cons_append] at h
    have hquote : singleSymbol? c = none ∧ isWordCharacter c = false ∧ c ≠ '$' := by
      have hc := text?_head h
      simp only [isQuote, Bool.or_eq_true, beq_iff_eq] at hc
      rcases hc with rfl | rfl <;> decide +kernel
    rw [← cut?_eq, hspelling, List.cons_append,
      cut?_cons_eq hquote.1 hquote.2.1 hquote.2.2, ← List.cons_append, ← hspelling, htext]
    rfl
  · exact absurd (trivia?_lexeme h) hx

end Lexeme
end Formula
