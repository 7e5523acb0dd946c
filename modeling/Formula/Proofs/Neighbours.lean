import Formula.Proofs.Provenance
import Formula.Proofs.Simulation
import Formula.Proofs.Tiling

/-! Which kinds of tokens a scan puts next to each other, and that a run never disagrees with the
scan. Main statement: where the scan takes a sign for an operator between operands, the run is
behind an operand, and where the scan takes a name for a call, the parenthesis follows. -/
namespace Formula

namespace Scan

/-- Inside a comment only a line feed matters. -/
theorem opensCall_body {body : List Char} (hb : '\n' ∉ body) (rest : List Char) :
    opensCall true (body ++ rest) = opensCall true rest := by
  induction body with
  | nil => rfl
  | cons c body ih =>
    obtain ⟨hc, hb⟩ := not_or.mp (mt List.mem_cons.mpr hb)
    have hne : (c != '\n') = true := by simpa using Ne.symm hc
    simp only [List.cons_append, opensCall, ↓reduceIte, hne]
    exact ih hb

theorem opensCall_comment {body : List Char} (hb : '\n' ∉ body) (rest : List Char) :
    opensCall true (body ++ '\n' :: rest) = opensCall false rest := by
  rw [opensCall_body hb]
  rfl

theorem opensCall_lastComment {body : List Char} (hb : '\n' ∉ body) :
    opensCall true body = false := by
  rw [← List.append_nil body, opensCall_body hb]
  rfl

theorem opensCall_append {last : Bool} {gap rest : List Char} (hg : Trivia last gap)
    (hrest : last = true → rest = []) : opensCall false (gap ++ rest) = opensCall false rest := by
  induction hg with
  | nil => rfl
  | @blank c cs hc _ ih =>
    have hne : c ≠ '#' := by
      rintro rfl
      revert hc
      decide
    simp only [List.cons_append, opensCall, Bool.false_eq_true, ↓reduceIte, hne, hc]
    exact ih
  | @comment body cs hb _ ih =>
    have hcomment := opensCall_comment hb (cs ++ rest)
    simpa [opensCall, hcomment] using ih
  | @lastComment body hl hb =>
    rw [hrest hl, List.append_nil]
    simpa [opensCall] using opensCall_lastComment hb

end Scan

theorem Kind.head_symbol (k : Kind) :
    ∃ c tl, k.symbol.toList = c :: tl ∧ c ≠ '#' ∧ Unicode.isBlank c = false ∧
      (c = '(' ↔ k = .parenOpen) := by
  cases k <;> exact ⟨_, _, rfl, by decide, by decide, by decide⟩

theorem Numeral.Mantissa.head_spelling {m : Mantissa} (hd : ∀ c ∈ m.digits, isDigit c = true)
    (hm : m.digits ≠ []) :
    ∃ c tl, m.spelling = c :: tl ∧ Lexeme.isWordCharacter c = true := by
  have hword : ∀ c ∈ m.digits, Lexeme.isWordCharacter c = true :=
    fun c hc => Lexeme.isWordCharacter_of_isDigit (hd c hc)
  obtain ⟨whole, fraction⟩ := m
  cases whole with
  | cons c whole => exact ⟨c, _, rfl, hword c List.mem_cons_self⟩
  | nil =>
    cases fraction with
    | none => exact absurd rfl hm
    | some fraction => exact ⟨'.', fraction, rfl, by decide +kernel⟩

namespace Lexeme

/-- The first character tells trivia and opening parentheses from everything else. -/
theorem Spelled.head {l : Lexeme} {w : List Char} (h : Spelled l w) :
    ∃ c tl, w = c :: tl ∧ c ≠ '#' ∧ Unicode.isBlank c = false ∧
      (c = '(' ↔ l = .symbol .parenOpen) := by
  -- What can stand in a word or a number is none of these characters.
  have plain : ∀ {c}, isWordCharacter c = true →
      c ≠ '#' ∧ Unicode.isBlank c = false ∧ c ≠ '(' := by
    intro c hc
    refine ⟨?_, ?_, ?_⟩
    · rintro rfl
      revert hc
      decide +kernel
    · by_contra hb
      rw [Bool.not_eq_false] at hb
      have hdot : Unicode.isBlank '.' = false := by decide
      have hline : Unicode.isBlank '_' = false := by decide
      simp only [isWordCharacter, Unicode.isAlphanumeric_of_isBlank hb, Bool.false_or,
        Bool.or_eq_true, beq_iff_eq] at hc
      rcases hc with rfl | rfl <;> simp_all
    · rintro rfl
      revert hc
      decide +kernel
  cases h with
  | @symbol k =>
    obtain ⟨c, tl, hw, hc, hb, hp⟩ := k.head_symbol
    exact ⟨c, tl, hw, hc, hb, by simpa using hp⟩
  | @number m hd hm =>
    obtain ⟨c, tl, hw, hc⟩ := Numeral.Mantissa.head_spelling hd hm
    obtain ⟨hhash, hb, hp⟩ := plain hc
    exact ⟨c, tl, hw, hhash, hb, by simp [hp]⟩
  | @bare w hw hc =>
    obtain ⟨c, tl, rfl⟩ := List.exists_cons_of_ne_nil hw
    obtain ⟨hhash, hb, hp⟩ := plain (hc c List.mem_cons_self)
    exact ⟨c, tl, rfl, hhash, hb, by simp [hp]⟩
  | explicit => exact ⟨_, _, rfl, by decide, by decide, by simp⟩
  | @text q w hq =>
    have hq' : q = '"' ∨ q = '\x27' := by simpa [isQuote] using hq
    rcases hq' with rfl | rfl
    · exact ⟨_, _, rfl, by decide, by decide, by simp⟩
    · exact ⟨_, _, rfl, by decide, by decide, by simp⟩

end Lexeme

/-- Kinds of tokens that may stand next to each other in what a scan gives. Nothing stands before
the first token and behind the last. -/
structure Neighbours (previous next : Option Kind) : Prop where
  call : previous = some .functionCall → next = some .parenOpen
  name : previous = some .identifier →
    next ≠ some .parenOpen ∧ next ≠ some .identifier ∧ next ≠ some .functionCall
  factor : previous = some .number ∨ previous = some .parenClose →
    next ≠ some .number ∧ next ≠ some .parenOpen
  prefixSign : next = some .unaryPlus ∨ next = some .unaryMinus →
    Scan.expectsOperand previous = true
  infixSign : next = some .plus ∨ next = some .minus → Scan.expectsOperand previous = false

instance (previous next : Option Kind) : Decidable (Neighbours previous next) :=
  decidable_of_iff
    ((previous = some .functionCall → next = some .parenOpen) ∧
      (previous = some .identifier →
        next ≠ some .parenOpen ∧ next ≠ some .identifier ∧ next ≠ some .functionCall) ∧
      (previous = some .number ∨ previous = some .parenClose →
        next ≠ some .number ∧ next ≠ some .parenOpen) ∧
      (next = some .unaryPlus ∨ next = some .unaryMinus → Scan.expectsOperand previous = true) ∧
      (next = some .plus ∨ next = some .minus → Scan.expectsOperand previous = false))
    ⟨fun ⟨h₁, h₂, h₃, h₄, h₅⟩ => ⟨h₁, h₂, h₃, h₄, h₅⟩,
      fun h => ⟨h.call, h.name, h.factor, h.prefixSign, h.infixSign⟩⟩

/-- What may stand behind a token of kind `previous`: each token fits the one before it, and what
the text leaves out is an operator behind an operand. -/
def Fits : Option Kind → List Token → Prop
  | previous, [] => Neighbours previous none
  | previous, t :: ts =>
    Neighbours previous (some t.kind) ∧
      (t.isImplicit = true →
        t.kind.isInfixOperator = true ∧ Scan.expectsOperand previous = false) ∧
      Fits (some t.kind) ts

namespace Scan

theorem opensCall_trivia {cs : List Char} {x : Lexeme.Cut} (hx : Lexeme.cut? cs = some x)
    (ht : x.lexeme = .trivia) : opensCall false cs = opensCall false x.rest := by
  rw [← (Lexeme.cut?_of hx).2]
  rcases Lexeme.cut?_cases hx with hw | ⟨-, hx⟩
  · exact absurd ht hw.ne_trivia
  · rcases Lexeme.trivia?_eq_some hx with hg | ⟨hrest, hg⟩
    · exact opensCall_append hg (by rintro ⟨⟩)
    · exact opensCall_append hg fun _ => hrest

/-- The look ahead over trivia sees the lexeme that the scan comes to. -/
theorem opensCall_lexeme {cs : List Char} {x : Lexeme.Cut} (hx : Lexeme.cut? cs = some x)
    (ht : x.lexeme ≠ .trivia) : opensCall false cs = true ↔ x.lexeme = .symbol .parenOpen := by
  obtain ⟨c, tl, hw, hhash, hb, hp⟩ := (Lexeme.cut?_spelled hx ht).head
  rw [← (Lexeme.cut?_of hx).2, hw, ← hp]
  simp [opensCall, hhash, hb]

variable {previous : Option Kind} {s : Span} {rest w : List Char} {l : Lexeme} {y : Share}

theorem neighbours_signKind {kind : Kind} (hw : (Lexeme.symbol kind).Spelled w)
    (hopen : kind = .parenOpen → endsFactor previous = false)
    (hcall : previous = some .functionCall → kind = .parenOpen)
    (hname : previous = some .identifier → kind ≠ .parenOpen) :
    Neighbours previous (some (signKind previous kind)) := by
  obtain ⟨hk, hp, hm⟩ : kind.isOperand = false ∧ kind ≠ .unaryPlus ∧ kind ≠ .unaryMinus := by
    cases hw with
    | symbol hk hp hm => exact ⟨hk, hp, hm⟩
  have hoperand : (signKind previous kind).isOperand = false := by rw [isOperand_signKind, hk]
  have hparen : signKind previous kind = .parenOpen ↔ kind = .parenOpen := by
    unfold signKind
    split
    · split <;> simp
    · rfl
  have hnot : ∀ k : Kind, k.isOperand = true → signKind previous kind ≠ k := by
    rintro k hk rfl
    rw [hoperand] at hk
    cases hk
  refine ⟨?_, ?_, ?_, ?_, ?_⟩
  · intro h
    rw [hparen.mpr (hcall h)]
  · intro h
    simp only [ne_eq, Option.some.injEq]
    exact ⟨mt hparen.mp (hname h), hnot _ rfl, hnot _ rfl⟩
  · intro h
    simp only [ne_eq, Option.some.injEq]
    refine ⟨hnot _ rfl, fun he => ?_⟩
    have hfactor := hopen (hparen.mp he)
    rcases h with rfl | rfl <;> cases hfactor
  · simp only [Option.some.injEq, signKind]
    intro h
    by_contra hn
    simp only [hn, ↓reduceIte] at h
    exact h.elim hp hm
  · simp only [Option.some.injEq, signKind]
    intro h
    by_contra hn
    rw [Bool.not_eq_false] at hn
    simp only [hn, ↓reduceIte] at h
    split at h <;> simp_all

theorem neighbours_operand {k : Kind} (hk : k.isOperand = true)
    (hcall : previous ≠ some .functionCall)
    (hname : previous = some .identifier → k ≠ .identifier ∧ k ≠ .functionCall)
    (hfactor : k = .number → endsFactor previous = false) : Neighbours previous (some k) := by
  have hnot : ∀ j : Kind, j.isOperand = false → k ≠ j := by
    rintro j hj rfl
    rw [hk] at hj
    cases hj
  refine ⟨fun h => absurd h hcall, ?_, ?_, ?_, ?_⟩
  · intro h
    simpa [hnot .parenOpen rfl] using hname h
  · intro h
    simp only [ne_eq, Option.some.injEq, hnot .parenOpen rfl, not_false_eq_true, and_true]
    intro he
    have hends := hfactor he
    rcases h with rfl | rfl <;> cases hends
  · simp [hnot .unaryPlus rfl, hnot .unaryMinus rfl]
  · simp [hnot .plus rfl, hnot .minus rfl]

theorem neighbours_keyword {kind : Kind} {word : String} (h : operatorWord? word = some kind)
    (hcall : previous ≠ some .functionCall) : Neighbours previous (some kind) := by
  rcases operatorWord?_eq_some h with rfl | rfl | rfl | rfl <;> constructor <;> simp [hcall]

theorem neighbours_times (h : endsFactor previous = true) :
    Neighbours previous (some .times) ∧ expectsOperand previous = false := by
  simp only [endsFactor, Bool.or_eq_true, beq_iff_eq] at h
  rcases h with rfl | rfl
  · exact ⟨by decide, rfl⟩
  · exact ⟨by decide, rfl⟩

/-- A name becomes a call exactly if its look ahead sees a parenthesis. -/
theorem Becomes.lookahead (hy : Becomes previous s rest l y) (hw : l.Spelled w) :
    (some y.own.kind = some .functionCall → opensCall false rest = true) ∧
      (some y.own.kind = some .identifier → opensCall false rest = false) := by
  have hname : y.own.kind = (if opensCall false rest then .functionCall else .identifier) ∨
      (y.own.kind ≠ .functionCall ∧ y.own.kind ≠ .identifier) := by
    cases hy with
    | @symbol kind =>
      have hk : (signKind previous kind).isOperand = false := by
        cases hw with
        | symbol hk => rw [isOperand_signKind, hk]
      refine .inr ⟨?_, ?_⟩
      · rintro (h : signKind previous kind = _)
        rw [h] at hk
        cases hk
      · rintro (h : signKind previous kind = _)
        rw [h] at hk
        cases hk
    | product | number | text | literal => exact .inr ⟨by rintro ⟨⟩, by rintro ⟨⟩⟩
    | keyword _ h =>
      rcases operatorWord?_eq_some h with rfl | rfl | rfl | rfl <;>
        exact .inr ⟨by rintro ⟨⟩, by rintro ⟨⟩⟩
    | name => exact .inl rfl
  rcases hname with h | ⟨hcall, hname⟩
  · rw [h]
    cases opensCall false rest <;> simp
  · simp [hcall, hname]

theorem Becomes.fits (hy : Becomes previous s rest l y) (hw : l.Spelled w)
    (hs : s.isEmpty = false)
    (hcall : previous = some .functionCall → l = .symbol .parenOpen)
    (hname : previous = some .identifier → l ≠ .symbol .parenOpen)
    {ts : List Token} (hts : Fits (some y.own.kind) ts) : Fits previous (y.tokens ++ ts) := by
  have hown : y.own.isImplicit = false := by rw [Token.isImplicit, hy.span_own, hs]
  have plain : y.inserted = [] → Neighbours previous (some y.own.kind) →
      Fits previous (y.tokens ++ ts) := by
    intro hi hn
    rw [Share.tokens, hi]
    exact ⟨hn, by simp [hown], hts⟩
  have spliced : ∀ k, k.isInfixOperator = true → y.inserted = [implied k s] →
      Neighbours previous (some k) → expectsOperand previous = false →
      Neighbours (some k) (some y.own.kind) → Fits previous (y.tokens ++ ts) := by
    intro k hk hi hn he hn'
    rw [Share.tokens, hi]
    exact ⟨hn, fun _ => ⟨hk, he⟩, hn', by simp [hown], hts⟩
  cases hy with
  | @symbol kind h =>
    refine plain rfl (neighbours_signKind hw h ?_ ?_)
    · intro hp
      simpa using hcall hp
    · intro hp
      simpa using hname hp
  | product h =>
    obtain ⟨hn, he⟩ := neighbours_times h
    exact spliced .times rfl rfl hn he (by decide : Neighbours (some .times) (some .parenOpen))
  | number =>
    by_cases h : endsFactor previous = true
    · obtain ⟨hn, he⟩ := neighbours_times h
      exact spliced .times rfl (if_pos h) hn he
        (by decide : Neighbours (some .times) (some .number))
    · exact plain (if_neg h) (neighbours_operand rfl (by simpa using hcall) (by simp) fun _ =>
        by simpa using h)
  | text | literal =>
    exact plain rfl (neighbours_operand rfl (by simpa using hcall) (by simp) (by simp))
  | keyword _ h => exact plain rfl (neighbours_keyword h (by simpa using hcall))
  | name =>
    have hkind : ∀ b : Bool, (if b then Kind.functionCall else .identifier).isOperand = true ∧
        (if b then Kind.functionCall else .identifier) ≠ .number ∧
        Neighbours (some .plus) (some (if b then Kind.functionCall else .identifier)) := by
      decide
    obtain ⟨hoperand, hnumber, hplus⟩ := hkind (opensCall false rest)
    by_cases h : previous = some .identifier
    · subst h
      exact spliced .plus rfl (by simp) (by decide) rfl hplus
    · exact plain (if_neg h) (neighbours_operand hoperand (by simpa using hcall)
        (fun hp => absurd hp h) (fun hn => absurd hn hnumber))

theorem Yields.fits {p : Place} {cs : List Char} {ys : List Share} (h : Yields previous p cs ys)
    (hcall : previous = some .functionCall → opensCall false cs = true)
    (hname : previous = some .identifier → opensCall false cs = false) :
    Fits previous (ys.flatMap Share.tokens) := by
  induction h with
  | @done previous p =>
    refine ⟨fun h => ?_, by simp, by simp, by simp, by simp⟩
    cases hcall h
  | trivia hx ht _ ih =>
    rw [opensCall_trivia hx ht] at hcall hname
    exact ih hcall hname
  | @lexeme previous p cs x y ys hx hy _ ih =>
    have hopens := opensCall_lexeme hx hy.ne_trivia
    have hs := Place.isEmpty_spanOf (Lexeme.cut?_of hx).1 p
    have hw := Lexeme.cut?_spelled hx hy.ne_trivia
    obtain ⟨hmoreCall, hmoreName⟩ := hy.lookahead hw
    rw [List.flatMap_cons]
    refine hy.fits hw hs ?_ ?_ (ih hmoreCall hmoreName)
    · exact fun hp => hopens.mp (hcall hp)
    · intro hp hl
      rw [hopens.mpr hl] at hname
      cases hname hp

end Scan

namespace Fits

theorem append {previous : Option Kind} {as bs : List Token} (h : Fits previous (as ++ bs)) :
    Fits ((as.getLast?.map Token.kind).or previous) bs := by
  induction as generalizing previous with
  | nil => exact h
  | cons a as ih =>
    have hmore := ih h.2.2
    cases as with
    | nil => exact hmore
    | cons b as =>
      rw [List.getLast?_cons_cons]
      have hlast := List.getLast?_isSome.mpr (List.cons_ne_nil b as)
      obtain ⟨c, hc⟩ := Option.isSome_iff_exists.mp hlast
      rw [hc] at hmore ⊢
      exact hmore

theorem neighbours {previous : Option Kind} {ts : List Token} (h : Fits previous ts) :
    Neighbours previous (ts.head?.map Token.kind) := by
  cases ts with
  | nil => exact h
  | cons t ts => exact h.1

end Fits

theorem Kind.expectsOperand_of_isInfixOperator {k : Kind} (h : k.isInfixOperator = true) :
    k ≠ .functionCall ∧ Scan.expectsOperand (some k) = true := by
  cases k <;> first | exact ⟨by decide, rfl⟩ | cases h

/-- The automaton and the scan tell alike what comes next, knowing the kind of the last token. -/
def Leads (previous : Option Kind) (e : Expected) : Prop :=
  (e = .parenthesis ↔ previous = some .functionCall) ∧
    (e = .operator ↔ previous ≠ some .functionCall ∧ Scan.expectsOperand previous = false)

instance (previous : Option Kind) (e : Expected) : Decidable (Leads previous e) :=
  inferInstanceAs (Decidable (_ ∧ _))

namespace Outline

variable {o o' : Outline} {ts : List Token} {t : Token}

/-- What is expected behind a token depends on its kind alone, as it does for the scan. -/
theorem leads_of_step {k : Kind} (h : o.step k = .ok o') : Leads (some k) o'.expected := by
  cases moves_of_step h <;> dsimp only
  case parenthesis hk | name hk | group hk | array hk | argument hk _ | entry hk _ | arrow hk _ =>
    subst hk
    decide
  case atom hk => rcases hk with rfl | rfl | rfl <;> decide
  case prefixed hk => cases k <;> first | decide | cases hk
  case close b _ _ _ hk _ =>
    subst hk
    cases b.isArray <;> decide
  case operation hk =>
    obtain ⟨hcall, he⟩ := Kind.expectsOperand_of_isInfixOperator hk
    simp [Leads, hcall, he]

theorem leads_of_steps (h : start.steps ts = .ok o) :
    Leads (ts.getLast?.map Token.kind) o.expected := by
  rcases List.eq_nil_or_concat ts with rfl | ⟨as, t, rfl⟩
  · cases h
    decide
  · rw [List.concat_eq_append] at h ⊢
    rw [steps_append] at h
    obtain ⟨q, -, h⟩ := bind_eq_ok.mp h
    rw [steps_cons] at h
    obtain ⟨p, hp, h⟩ := bind_eq_ok.mp h
    cases h
    simpa using leads_of_step hp

/-- The automaton takes every sign that a scan gives, and every operator that it inserts. -/
theorem step_of_fits {bs : List Token} (h : start.steps ts = .ok o)
    (hf : Fits (ts.getLast?.map Token.kind) (t :: bs))
    (ht : t.kind ∈ [Kind.plus, .minus, .unaryPlus, .unaryMinus] ∨ t.isImplicit = true) :
    ∃ o', o.step t.kind = .ok o' := by
  obtain ⟨hcall, hoperator⟩ := leads_of_steps h
  obtain ⟨hn, hi, -⟩ := hf
  by_cases hp : o.expected = .parenthesis
  · have hk : t.kind = .parenOpen := Option.some.inj (hn.call (hcall.mp hp))
    exact ⟨⟨.call :: o.brackets, .entry⟩, by simp [step, hp, hk]⟩
  · have binary : t.kind.isInfixOperator = true →
        Scan.expectsOperand (ts.getLast?.map Token.kind) = false →
        ∃ o', o.step t.kind = .ok o' := by
      intro hk he
      have ho := hoperator.mpr ⟨mt hcall.mpr hp, he⟩
      exact ⟨_, (step_infixOperator hk hp).trans (if_pos ho)⟩
    have unary : t.kind.isPrefixOperator = true →
        Scan.expectsOperand (ts.getLast?.map Token.kind) = true → ∃ o', o.step t.kind = .ok o' := by
      intro hk he
      have ho : o.expected ≠ .operator := by
        intro ho
        rw [(hoperator.mp ho).2] at he
        cases he
      exact ⟨_, (step_prefixOperator hk hp).trans (if_neg ho)⟩
    rcases ht with ht | ht
    · simp only [List.mem_cons, List.not_mem_nil, or_false] at ht
      rcases ht with hk | hk | hk | hk <;> rw [hk] at hn binary unary ⊢
      · exact binary rfl (hn.infixSign (.inl rfl))
      · exact binary rfl (hn.infixSign (.inr rfl))
      · exact unary rfl (hn.prefixSign (.inl rfl))
      · exact unary rfl (hn.prefixSign (.inr rfl))
    · exact binary (hi ht).1 (hi ht).2

end Outline

namespace Run

variable {env : Environment} {r : Run} {ts : List Token}

/-- A run is where the scan has been: it waits for a parenthesis behind the name of a call, and else
for an operand where the scan does. -/
theorem agrees_of_steps (h : start.steps env ts = .ok r) :
    (r.awaiting.isSome = true ↔ ts.getLast?.map Token.kind = some .functionCall) ∧
      (r.awaiting = none →
        r.yard.expectsOperand = Scan.expectsOperand (ts.getLast?.map Token.kind)) := by
  obtain ⟨hcall, hoperator⟩ := Outline.leads_of_steps (steps_outline h)
  cases ha : r.awaiting with
  | some call =>
    rw [outline_of_awaiting ha] at hcall
    exact ⟨⟨fun _ => hcall.mp rfl, fun _ => rfl⟩, by rintro ⟨⟩⟩
  | none =>
    rw [outline_of_none ha] at hcall hoperator
    have hlast := mt hcall.mpr Yard.expected_ne_parenthesis
    refine ⟨⟨by rintro ⟨⟩, fun h => absurd h hlast⟩, fun _ => ?_⟩
    have hbool : r.yard.expectsOperand = false ↔
        Scan.expectsOperand (ts.getLast?.map Token.kind) = false := by
      rw [← Yard.expected_eq_operator]
      exact hoperator.trans (and_iff_right hlast)
    cases hy : r.yard.expectsOperand with
    | false => exact (hbool.mp hy).symm
    | true =>
      rw [hy] at hbool
      simpa using hbool

end Run

/-- Unless the host says so by itself, a token is unexpected where the automaton stops. -/
theorem refused_of_unexpected {env : Environment} {ts : List Token} {e : Fault}
    (hn : ¬ env.Reports .unexpectedToken) (he : evaluateTokens env ts = .error e)
    (hk : e.syntaxKind? = some .unexpectedToken) :
    ∃ as t bs r f, ts = as ++ t :: bs ∧ Run.start.steps env as = .ok r ∧
      r.step env t = .error e ∧ e = .unexpected t ∧ r.outline.step t.kind = .error f := by
  by_cases hts : ts = []
  · subst hts
    cases he
    cases hk
  have hi : ¬ Interrupted env ts e := fun h => hn (h.reports hk)
  have hsteady := Run.steady_start env.limits
  rw [evaluateTokens_of_ne_nil env hts] at he
  rcases bind_eq_error.mp he with he | ⟨r, hr, he⟩
  · obtain ⟨as, t, bs, r, rfl, hr, hsteady, hstep⟩ := Run.steps_eq_error hsteady he
    rcases Run.step_eq_error hsteady hstep with h | ⟨f, hf, rfl⟩
    · exact absurd (.token rfl hr h) hi
    · refine ⟨as, t, bs, r, f, rfl, hr, hstep, ?_, hf⟩
      rw [SyntaxFault.at]
      refine if_neg ?_
      rintro rfl
      cases hk
  · rcases Run.finish_eq_error (hsteady.steps hr) he with ⟨ha, hf, hy, d, hd, rfl⟩ | ⟨-, h⟩
    · have ho := (hsteady.steps hr).disciplined.operatorFault_of_reduce hy hd
      exact absurd (.finish hts hr ha hf hy hd ho) hi
    · rcases h with h | h <;> cases hk.symm.trans h

/-- The tokens of a text stand next to each other as a run needs them. Behind whatever part of them
a run has taken, it expects an operand where the scan did, and the parenthesis of a call is there.
So no sign is ever unexpected, and nothing that the scan has inserted. -/
theorem tokenize_neighbours {source : String} {stream : TokenStream}
    (h : tokenize source = .ok stream) :
    (∀ as bs, stream.tokens = as ++ bs →
      Neighbours (as.getLast?.map Token.kind) (bs.head?.map Token.kind)) ∧
    ∀ env : Environment,
      (∀ as bs r, stream.tokens = as ++ bs → Run.start.steps env as = .ok r →
        (r.awaiting = none →
          r.yard.expectsOperand = Scan.expectsOperand (as.getLast?.map Token.kind)) ∧
        (r.awaiting.isSome = true → bs.head?.map Token.kind = some .parenOpen)) ∧
      (¬ env.Reports .unexpectedToken → ∀ e, evaluateTokens env stream.tokens = .error e →
        e.syntaxKind? = some .unexpectedToken →
          ∃ as t bs r, stream.tokens = as ++ t :: bs ∧ Run.start.steps env as = .ok r ∧
            r.step env t = .error e ∧ e = .unexpected t ∧
            t.kind ∉ [Kind.plus, .minus, .unaryPlus, .unaryMinus] ∧ t.isImplicit = false) := by
  obtain ⟨ys, hys, rfl⟩ := tokenize_eq_ok.mp h
  have hfits : ∀ as bs, (TokenStream.ofTokens (ys.flatMap Scan.Share.tokens)).tokens = as ++ bs →
      Fits (as.getLast?.map Token.kind) bs := by
    intro as bs hsplit
    have hall : Fits none (ys.flatMap Scan.Share.tokens) := hys.fits (by rintro ⟨⟩) (by rintro ⟨⟩)
    rw [show ys.flatMap Scan.Share.tokens = as ++ bs from hsplit] at hall
    simpa using hall.append
  refine ⟨fun as bs hsplit => (hfits as bs hsplit).neighbours, fun env => ⟨?_, ?_⟩⟩
  · intro as bs r hsplit hr
    obtain ⟨hawaiting, hexpects⟩ := Run.agrees_of_steps hr
    exact ⟨hexpects, fun ha => (hfits as bs hsplit).neighbours.call (hawaiting.mp ha)⟩
  · intro hn e he hk
    obtain ⟨as, t, bs, r, f, hsplit, hr, hstep, hunexpected, hf⟩ := refused_of_unexpected hn he hk
    have htaken : ¬ (t.kind ∈ [Kind.plus, .minus, .unaryPlus, .unaryMinus] ∨
        t.isImplicit = true) := by
      intro ht
      obtain ⟨o, ho⟩ := Outline.step_of_fits (Run.steps_outline hr) (hfits _ _ hsplit) ht
      cases ho.symm.trans hf
    obtain ⟨hsign, himplicit⟩ := not_or.mp htaken
    exact ⟨as, t, bs, r, hsplit, hr, hstep, hunexpected, hsign, by simpa using himplicit⟩

/-- A comma outside of brackets. -/
def bareComma : List Token :=
  [⟨.identifier, .name "a", ⟨0, 1, 1, 1⟩⟩, .bare .comma ⟨1, 2, 1, 2⟩]

theorem tokenize_neighbours_comma :
    tokenize "a," = .ok (.ofTokens bareComma) ∧
      Neighbours (some .identifier) (some .comma) ∧
      ¬ Environment.empty.Reports .unexpectedToken ∧
      evaluateTokens .empty bareComma = .error (.unexpected (.bare .comma ⟨1, 2, 1, 2⟩)) ∧
      ∃ as t bs r, bareComma = as ++ t :: bs ∧ Run.start.steps .empty as = .ok r ∧
        r.step .empty t = .error (.unexpected (.bare .comma ⟨1, 2, 1, 2⟩)) ∧
        Fault.unexpected (.bare .comma ⟨1, 2, 1, 2⟩) = .unexpected t ∧
        t.kind ∉ [Kind.plus, .minus, .unaryPlus, .unaryMinus] ∧ t.isImplicit = false := by
  have h : tokenize "a," = .ok (.ofTokens bareComma) := by cbv
  have he : evaluateTokens .empty bareComma =
      .error (.unexpected (.bare .comma ⟨1, 2, 1, 2⟩)) := rfl
  have hn := Environment.not_reports_empty .unexpectedToken
  obtain ⟨hneighbours, hruns⟩ := tokenize_neighbours h
  exact ⟨h, hneighbours [⟨.identifier, .name "a", ⟨0, 1, 1, 1⟩⟩] [.bare .comma ⟨1, 2, 1, 2⟩] rfl,
    hn, he, (hruns .empty).2 hn _ he rfl⟩

end Formula
