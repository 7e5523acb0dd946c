import Formula.Proofs.Erasure
import Formula.Proofs.Layout
import Formula.Proofs.Truncation

/-! Operators that a text leaves out. Main statement: to write such an operator out, where it is
left out, makes it a token with text and changes nothing else, and the value is the same. -/
namespace Formula

/-- What a text may leave out: a product in front of a number or a parenthesis, and a sum in front
of a name. -/
inductive Omitted : Kind → Kind → Prop
  | number : Omitted .times .number
  | bracket : Omitted .times .parenOpen
  | name : Omitted .plus .identifier
  | call : Omitted .plus .functionCall

namespace Lexeme

variable {op next : Kind}

theorem cut?_single {c : Char} {k : Kind} (hc : singleSymbol? c = some k)
    (hd : ∀ d, doubleSymbol? c d = none) (text : List Char) :
    cut? (c :: text) = some ⟨.symbol k, [c], text⟩ := by
  have hsymbol : symbol? (c :: text) = some ⟨.symbol k, [c], text⟩ := by
    cases text with
    | nil => simp [symbol?, hc]
    | cons d text => simp [symbol?, hc, hd]
  rw [cut?_eq, hsymbol]
  rfl

theorem eq_of_omitted (ho : Omitted op next) : op = .times ∨ op = .plus := by
  cases ho <;> simp

/-- The sign of an operator that can be left out is a lexeme, whatever stands behind it. -/
theorem cut?_omitted (ho : Omitted op next) (text : List Char) :
    cut? (op.symbol.toList ++ text) = some ⟨.symbol op, op.symbol.toList, text⟩ := by
  rcases eq_of_omitted ho with rfl | rfl
  · exact cut?_single (c := '*') rfl (fun _ => rfl) text
  · exact cut?_single (c := '+') rfl (fun _ => rfl) text

theorem mayFollow_omitted (ho : Omitted op next) (before text : List Char) :
    MayFollow before (op.symbol.toList ++ text) := by
  rcases eq_of_omitted ho with rfl | rfl
  · rintro _ ⟨⟩
    refine .inr ⟨?_, ?_, ?_, ?_⟩ <;> decide +kernel
  · rintro _ ⟨⟩
    refine .inr ⟨?_, ?_, ?_, ?_⟩ <;> decide +kernel

end Lexeme

/-- A token that stands where it is spelled has text. -/
theorem Token.reading_spanOf {w : List Char} (hw : w ≠ []) (kind : Kind) (payload : Payload)
    (p : Place) : Token.reading ⟨kind, payload, p.spanOf w⟩ = (kind, payload, false) := by
  rw [reading, isImplicit, Place.isEmpty_spanOf hw]

namespace Scan

variable {previous : Option Kind} {s : Span} {rest text cs : List Char} {l : Lexeme} {y : Share}
  {p : Place} {t : Token} {as bs ys : List Share}

/-- The lexeme in front of which an operator is left out. Behind the operator it becomes the same,
and nothing is left out any more. -/
structure Omits (previous : Option Kind) (s : Span) (rest : List Char) (l : Lexeme) (y : Share)
    (t : Token) : Prop where
  token : t = implied t.kind s
  omitted : Omitted t.kind y.own.kind
  operand : expectsOperand previous = false
  call : previous = some .identifier ∨ previous = some .functionCall → l ≠ .symbol .parenOpen
  written : ∀ s', Becomes (some t.kind) s' rest l ⟨[], { y.own with span := s' }⟩

theorem Becomes.omits (hy : Becomes previous s rest l y) (hi : y.inserted = [t]) :
    Omits previous s rest l y t := by
  cases hy with
  | symbol | text | literal | keyword => cases hi
  | product h =>
    cases hi
    refine ⟨rfl, .bracket, (neighbours_times h).2, ?_, fun s' => .symbol fun _ => rfl⟩
    rintro (rfl | rfl) <;> cases h
  | @number x =>
    by_cases h : endsFactor previous = true
    · rw [if_pos h] at hi
      cases hi
      exact ⟨rfl, .number, (neighbours_times h).2, fun _ => by simp, fun s' => .number⟩
    · rw [if_neg h] at hi
      cases hi
  | @name w explicit h =>
    by_cases hp : previous = some .identifier
    · rw [if_pos hp] at hi
      cases hi
      refine ⟨rfl, ?_, by rw [hp]; rfl, fun _ => by simp, fun s' => .name h⟩
      cases opensCall false rest with
      | true => exact .call
      | false => exact .name
    · rw [if_neg hp] at hi
      cases hi

/-- The lexeme in front sees no difference when an operator is written out behind it. -/
theorem Heads.alike (h : Heads previous p text y ys) (hi : y.inserted = [t]) :
    Alike previous text (t.kind.symbol.toList ++ text) := by
  obtain ⟨hx, hy, -⟩ := h
  obtain ⟨-, ho, -, hcall, -⟩ := hy.omits hi
  refine ⟨Lexeme.mayFollow_omitted ho _ _, fun hp => ?_⟩
  have hclosed : opensCall false text = false := by
    rw [← Bool.not_eq_true, opensCall_lexeme hx hy.ne_trivia]
    exact hcall hp
  have hsign := opensCall_lexeme (Lexeme.cut?_omitted ho text) (by rintro ⟨⟩)
  rw [hclosed, ← Bool.not_eq_true, hsign]
  rcases Lexeme.eq_of_omitted ho with hk | hk <;> simp [hk]

/-- The operator, written out in front of the lexeme, and what stands behind it. -/
theorem Heads.writeOut (h : Heads previous p text y ys) (hi : y.inserted = [t]) :
    ∃ zs, Laid previous p (t.kind.symbol.toList ++ text) zs ∧
      (zs.flatMap Share.tokens).map Token.reading =
        (t.kind, t.payload, false) :: (y.own :: ys.flatMap Share.tokens).map Token.reading := by
  obtain ⟨hx, hy, more⟩ := h
  have ho := hy.omits hi
  have hcut := Lexeme.cut?_omitted ho.omitted text
  have hsign : ∀ s, Becomes previous s text (.symbol t.kind) ⟨[], .bare t.kind s⟩ := by
    intro s
    have hopen : t.kind ≠ .parenOpen := by
      rcases Lexeme.eq_of_omitted ho.omitted with hk | hk <;> simp [hk]
    have hsymbol : Becomes previous s text (.symbol t.kind) _ := .symbol fun hk => absurd hk hopen
    simpa [signKind, ho.operand] using hsymbol
  obtain ⟨zs, hzs, hreading⟩ := more.move _
  refine ⟨_, .first hcut (hsign _) (.first hx (ho.written _) hzs), ?_⟩
  have hkept : y.own.reading = (y.own.kind, y.own.payload, false) := by
    have hown := Token.reading_spanOf (Lexeme.cut?_of hx).1 y.own.kind y.own.payload p
    rwa [← hy.span_own] at hown
  have hsignReading := Token.reading_spanOf (Lexeme.cut?_of hcut).1 t.kind .none
  have hmoved := Token.reading_spanOf (Lexeme.cut?_of hx).1 y.own.kind y.own.payload
  rw [ho.token, List.map_cons, hkept, ← hreading]
  simp only [Share.tokens, List.flatMap_cons, List.nil_append, List.singleton_append,
    List.map_cons, Token.bare, hsignReading, hmoved, implied]

/-- An operator that is left out in front of a lexeme can be written out there. -/
theorem Laid.writeOut (h : Laid previous p cs (as ++ y :: bs)) (hi : y.inserted = [t]) :
    ∃ before text zs, cs = before ++ text ∧ t.span.start = (p.advance before).offset ∧
      Omitted t.kind y.own.kind ∧
      Laid previous p (before ++ (t.kind.symbol.toList ++ text)) zs ∧
      (zs.flatMap Share.tokens).map Token.reading =
        (as.flatMap Share.tokens).map Token.reading ++ (t.kind, t.payload, false) ::
          (y.own :: bs.flatMap Share.tokens).map Token.reading := by
  obtain ⟨before, text, hcs, hheads, hreplace⟩ := h.split
  obtain ⟨-, hlaid⟩ := hreplace _ (hheads.alike hi)
  obtain ⟨zs, hzs, hreading⟩ := hheads.writeOut hi
  obtain ⟨hx, hy, more⟩ := hheads
  have ho := hy.omits hi
  refine ⟨before, text, as ++ zs, hcs, ?_, ho.omitted, hlaid zs hzs, ?_⟩
  · rw [ho.token]
    rfl
  · rw [List.flatMap_append, List.map_append, hreading]

end Scan

variable {source : String} {before text : List Char}

theorem utf8ByteSize_insertAt (hs : source.toList = before ++ text) (cs : List Char) :
    (insertAt source (bytes before) cs).utf8ByteSize = source.utf8ByteSize + bytes cs := by
  rw [utf8ByteSize_eq hs, utf8ByteSize_eq (toList_insertAt hs cs), bytes_append]
  omega

theorem Token.map_unplaced (ts : List Token) :
    ts.map Token.unplaced = (ts.map Token.reading).map fun r => ⟨r.1, r.2.1, default⟩ := by
  rw [List.map_map]
  rfl

/-- A text that leaves out an operator means what it means when the operator is written out. The
operator becomes a token with text, and all other tokens stay what they are. -/
theorem tokenize_writeOut {stream : TokenStream} {as bs : List Token} {t : Token}
    (h : tokenize source = .ok stream) (hsplit : stream.tokens = as ++ t :: bs)
    (ht : t.isImplicit = true) :
    (∃ u us, bs = u :: us ∧ Omitted t.kind u.kind) ∧
    (∃ stream', tokenize (insertAt source t.span.start t.kind.symbol.toList) = .ok stream' ∧
      stream'.tokens.map Token.reading =
        as.map Token.reading ++ (t.kind, t.payload, false) :: bs.map Token.reading) ∧
    ∀ (env : Environment) (v : Value),
      (insertAt source t.span.start t.kind.symbol.toList).utf8ByteSize ≤ env.limits.bytes →
        (env.evaluate source = .ok v ↔
          env.evaluate (insertAt source t.span.start t.kind.symbol.toList) = .ok v) := by
  obtain ⟨ys, hys, rfl⟩ := tokenize_eq_ok.mp h
  have hstands : ∀ y ∈ ys, y.Stands source := (hys.tiling [] rfl).stands rfl
  obtain ⟨pre, y, post, rfl, rfl, hi, rfl⟩ := Scan.split_of_isImplicit hstands hsplit ht
  obtain ⟨before, text, zs, hs, hstart, ho, hzs, hreading⟩ :=
    (Scan.laid_of_yields hys).writeOut hi
  rw [Place.advance_origin] at hstart
  have hnew : tokenize (insertAt source t.span.start t.kind.symbol.toList) =
      .ok (.ofTokens (zs.flatMap Scan.Share.tokens)) := by
    refine tokenize_eq_ok.mpr ⟨zs, ?_, rfl⟩
    rw [hstart, toList_insertAt hs]
    exact Scan.yields_of_laid hzs
  refine ⟨⟨_, _, rfl, ho⟩, ⟨_, hnew, hreading⟩, fun env v hbytes => ?_⟩
  have hless : source.utf8ByteSize ≤ env.limits.bytes := by
    rw [hstart, utf8ByteSize_insertAt hs] at hbytes
    omega
  have hsays : ((pre ++ y :: post).flatMap Scan.Share.tokens).map Token.unplaced =
      (zs.flatMap Scan.Share.tokens).map Token.unplaced := by
    rw [Token.map_unplaced, Token.map_unplaced, hreading]
    simp [Scan.Share.tokens, hi, Token.reading]
  rw [Environment.evaluate_of_le hless, Environment.evaluate_of_le hbytes, h, hnew]
  exact evaluateTokens_of_unplaced_eq hsays env v

/-- Two names on two lines, and the sum that they stand for. -/
def sumTokens : List Token :=
  [⟨.identifier, .name "é", ⟨0, 2, 1, 1⟩⟩, .bare .plus (.point 5 2 2),
    ⟨.identifier, .name "b", ⟨5, 6, 2, 2⟩⟩]

/-- The sum of two names on two lines, with its operator. -/
theorem tokenize_writeOut_sum :
    tokenize "é#\n b" = .ok (.ofTokens sumTokens) ∧
      insertAt "é#\n b" 5 Kind.plus.symbol.toList = "é#\n +b" ∧
      (∃ u us, sumTokens.drop 2 = u :: us ∧ Omitted .plus u.kind) ∧
      (∃ stream', tokenize (insertAt "é#\n b" 5 Kind.plus.symbol.toList) = .ok stream' ∧
        stream'.tokens.map Token.reading =
          (sumTokens.take 1).map Token.reading ++
            (.plus, .none, false) :: (sumTokens.drop 2).map Token.reading) ∧
      ∀ (env : Environment) (v : Value),
        (insertAt "é#\n b" 5 Kind.plus.symbol.toList).utf8ByteSize ≤ env.limits.bytes →
          (env.evaluate "é#\n b" = .ok v ↔
            env.evaluate (insertAt "é#\n b" 5 Kind.plus.symbol.toList) = .ok v) := by
  have h : tokenize "é#\n b" = .ok (.ofTokens sumTokens) := by cbv
  have hsplit : (TokenStream.ofTokens sumTokens).tokens =
      sumTokens.take 1 ++ .bare .plus (.point 5 2 2) :: sumTokens.drop 2 := rfl
  have hnew : insertAt "é#\n b" 5 Kind.plus.symbol.toList = "é#\n +b" := rfl
  have hwritten := tokenize_writeOut h hsplit rfl
  exact ⟨h, hnew, hwritten⟩

end Formula
