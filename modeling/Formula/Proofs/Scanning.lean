import Formula.Scan
import Mathlib.Data.List.TakeWhile

/-! A scan as a derivation: which lexemes it takes off a text one after the other, and which tokens
each of them becomes. A scan that nobody intercepts finds exactly what can be derived. -/
namespace Formula

theorem Unicode.isAlphanumeric_of_isBlank {c : Char} (h : isBlank c = true) :
    isAlphanumeric c = false := by
  have hall : ∀ n ∈ [9, 10, 11, 12, 13, 32, 0x85, 0xA0, 0x1680, 0x2000, 0x2001, 0x2002, 0x2003,
      0x2004, 0x2005, 0x2006, 0x2007, 0x2008, 0x2009, 0x200A, 0x2028, 0x2029, 0x202F, 0x205F,
      0x3000], isAlphanumeric (Char.ofNat n) = false := by
    decide +kernel
  have hn := hall c.toNat
  rw [Char.ofNat_toNat] at hn
  apply hn
  simp only [isBlank, Bool.or_eq_true, beq_iff_eq, decide_eq_true_eq] at h
  simp only [List.mem_cons, List.not_mem_nil, or_false]
  omega

namespace Lexeme

/-- How a lexeme that is no trivia can be spelled. -/
inductive Spelled : Lexeme → List Char → Prop
  | symbol {k : Kind} (hk : k.isOperand = false) (hp : k ≠ .unaryPlus) (hm : k ≠ .unaryMinus) :
      Spelled (.symbol k) k.symbol.toList
  | number {m : Numeral.Mantissa} (hd : ∀ c ∈ m.digits, Numeral.isDigit c = true)
      (hm : m.digits ≠ []) : Spelled (.number (m.value 0)) m.spelling
  | bare {w : List Char} (hw : w ≠ []) (hc : ∀ c ∈ w, isWordCharacter c = true) :
      Spelled (.word (String.ofList w) false) w
  | explicit {w : List Char} (hw : w ≠ []) (hc : '\x7d' ∉ w) :
      Spelled (.word (String.ofList w) true) ('$' :: '\x7b' :: (w ++ ['\x7d']))
  | text {q : Char} {w : List Char} (hq : isQuote q = true) (hc : q ∉ w) :
      Spelled (.text (String.ofList w)) (q :: (w ++ [q]))

variable {cs : List Char} {x : Cut}

theorem doubleSymbol?_spelled {c d : Char} {k : Kind} (h : doubleSymbol? c d = some k) :
    Spelled (.symbol k) [c, d] := by
  unfold doubleSymbol? at h
  split at h <;> cases h <;> exact .symbol (by decide) (by decide) (by decide)

theorem singleSymbol?_spelled {c : Char} {k : Kind} (h : singleSymbol? c = some k) :
    Spelled (.symbol k) [c] := by
  unfold singleSymbol? at h
  split at h <;> cases h <;> exact .symbol (by decide) (by decide) (by decide)

theorem symbol?_spelled (h : symbol? cs = some x) : Spelled x.lexeme x.spelling := by
  unfold symbol? at h
  split at h
  · cases h
  · obtain ⟨k, hk, rfl⟩ := Option.map_eq_some_iff.mp h
    exact singleSymbol?_spelled hk
  · split at h
    · rename_i k hk
      cases h
      exact doubleSymbol?_spelled hk
    · obtain ⟨k, hk, rfl⟩ := Option.map_eq_some_iff.mp h
      exact singleSymbol?_spelled hk

theorem isDigit_of_cut? {m : Numeral.Mantissa} {rest : List Char}
    (h : Numeral.Mantissa.cut? cs = some (m, rest)) :
    ∀ c ∈ m.digits, Numeral.isDigit c = true := by
  have digits : ∀ (cs : List Char) c, c ∈ cs.takeWhile Numeral.isDigit →
      Numeral.isDigit c = true := fun _ _ hc => List.mem_takeWhile_imp hc
  intro c hc
  unfold Numeral.Mantissa.cut? at h
  split at h
  · dsimp only at h
    split at h <;> cases h
    rcases List.mem_append.mp hc with hc | hc
    · exact digits _ c hc
    · exact digits _ c hc
  · dsimp only at h
    split at h <;> cases h
    rcases List.mem_append.mp hc with hc | hc
    · exact digits _ c hc
    · cases hc

theorem number?_spelled (h : number? cs = some x) : Spelled x.lexeme x.spelling := by
  obtain ⟨⟨m, rest⟩, hm, rfl⟩ := Option.map_eq_some_iff.mp h
  exact .number (isDigit_of_cut? hm) (Numeral.Mantissa.cut?_eq_some hm).2

/-- What stops a run of other characters is the character itself. -/
theorem takeWhile_ne {q close : Char} {body rest : List Char}
    (h : body.dropWhile (· != q) = close :: rest) : close = q ∧ q ∉ body.takeWhile (· != q) := by
  constructor
  · have hc := List.head?_dropWhile_not (· != q) body
    rw [h] at hc
    simpa using hc
  · intro hq
    simpa using List.mem_takeWhile_imp hq

theorem explicitWord?_spelled {body : List Char} (h : explicitWord? body = some x) :
    Spelled x.lexeme x.spelling := by
  unfold explicitWord? at h
  split at h
  · rename_i close rest hrest
    split at h
    · cases h
    · rename_i hw
      cases h
      obtain ⟨rfl, hq⟩ := takeWhile_ne hrest
      exact .explicit (by simpa using hw) hq
  · cases h

theorem word?_spelled (h : word? cs = some x) : Spelled x.lexeme x.spelling := by
  unfold word? at h
  split at h
  · exact explicitWord?_spelled h
  · dsimp only at h
    split at h
    · cases h
    · rename_i hw
      cases h
      exact .bare (by simpa using hw) fun c hc => List.mem_takeWhile_imp hc

theorem text?_spelled (h : text? cs = some x) : Spelled x.lexeme x.spelling := by
  unfold text? at h
  split at h
  · cases h
  · rename_i quote body
    split at h
    · rename_i hquote
      split at h
      · rename_i close rest hrest
        cases h
        obtain ⟨rfl, hq⟩ := takeWhile_ne hrest
        exact .text hquote hq
      · cases h
    · cases h

theorem trivia?_lexeme (h : trivia? cs = some x) : x.lexeme = .trivia := by
  unfold trivia? at h
  split at h
  · cases h
  · split at h
    · split at h <;> cases h <;> rfl
    · split at h <;> cases h
      rfl

theorem cut?_cases (h : cut? cs = some x) :
    Spelled x.lexeme x.spelling ∨ (x.lexeme = .trivia ∧ trivia? cs = some x) := by
  unfold cut? at h
  simp only [HOrElse.hOrElse, OrElse.orElse, Option.orElse_eq_or, Option.or_eq_some_iff] at h
  rcases h with h | ⟨-, h | ⟨-, h | ⟨-, h | ⟨-, h⟩⟩⟩⟩
  · exact .inl (symbol?_spelled h)
  · exact .inl (number?_spelled h)
  · exact .inl (word?_spelled h)
  · exact .inl (text?_spelled h)
  · exact .inr ⟨trivia?_lexeme h, h⟩

theorem cut?_spelled (h : cut? cs = some x) (hx : x.lexeme ≠ .trivia) :
    Spelled x.lexeme x.spelling :=
  (cut?_cases h).resolve_right fun ht => hx ht.1

theorem Spelled.ne_trivia {l : Lexeme} {w : List Char} (h : Spelled l w) : l ≠ .trivia := by
  cases h <;> rintro ⟨⟩

end Lexeme

namespace Scan

/-- The tokens of one lexeme: its own, and those inserted in front of it. -/
structure Share where
  inserted : List Token
  own : Token

def Share.tokens (y : Share) : List Token := y.inserted ++ [y.own]

/-- What a lexeme at `s` becomes, behind a token of kind `previous` and before `rest`. -/
inductive Becomes (previous : Option Kind) (s : Span) (rest : List Char) : Lexeme → Share → Prop
  | symbol {kind} (h : kind = .parenOpen → endsFactor previous = false) :
      Becomes previous s rest (.symbol kind) ⟨[], .bare (signKind previous kind) s⟩
  | product (h : endsFactor previous = true) :
      Becomes previous s rest (.symbol .parenOpen) ⟨[implied .times s], .bare .parenOpen s⟩
  | number {x} :
      Becomes previous s rest (.number x)
        ⟨if endsFactor previous then [implied .times s] else [], ⟨.number, .value (.number x), s⟩⟩
  | text {w} : Becomes previous s rest (.text w) ⟨[], ⟨.literal, .value (.text w), s⟩⟩
  | literal {w v} (h : literalWord? w = some v) :
      Becomes previous s rest (.word w false) ⟨[], ⟨.literal, .value v, s⟩⟩
  | keyword {w kind} (hl : literalWord? w = none) (h : operatorWord? w = some kind) :
      Becomes previous s rest (.word w false) ⟨[], .bare kind s⟩
  | name {w explicit}
      (h : explicit = false → literalWord? w = none ∧ operatorWord? w = none) :
      Becomes previous s rest (.word w explicit)
        ⟨if previous = some .identifier then [implied .plus s] else [],
          ⟨if opensCall false rest then .functionCall else .identifier, .name w, s⟩⟩

variable {previous : Option Kind} {s : Span} {rest : List Char} {l : Lexeme} {y : Share}

theorem Becomes.ne_trivia (h : Becomes previous s rest l y) : l ≠ .trivia := by
  rintro rfl
  cases h

theorem Becomes.span_own (h : Becomes previous s rest l y) : y.own.span = s := by
  cases h <;> rfl

theorem inserted_of_ite {c : Prop} [Decidable c] {k : Kind} (hk : k = .times ∨ k = .plus)
    (s : Span) :
    (if c then [implied k s] else []) = [] ∨
      ∃ kind, (kind = .times ∨ kind = .plus) ∧
        (if c then [implied k s] else []) = [implied kind s] := by
  split
  · exact .inr ⟨k, hk, rfl⟩
  · exact .inl rfl

/-- A scan inserts nothing but an operator right in front of the own token. -/
theorem Becomes.inserted_eq (h : Becomes previous s rest l y) :
    y.inserted = [] ∨
      ∃ kind, (kind = .times ∨ kind = .plus) ∧ y.inserted = [implied kind y.own.span] := by
  cases h with
  | symbol | text | literal | keyword => exact .inl rfl
  | product => exact .inr ⟨.times, .inl rfl, rfl⟩
  | number => exact inserted_of_ite (.inl rfl) s
  | name => exact inserted_of_ite (.inr rfl) s

theorem Share.own_or_implied
    (hi : y.inserted = [] ∨
      ∃ kind, (kind = .times ∨ kind = .plus) ∧ y.inserted = [implied kind y.own.span])
    {t : Token} (ht : t ∈ y.tokens) : t = y.own ∨ ∃ kind, t = implied kind y.own.span := by
  rcases List.mem_append.mp ht with ht | ht
  · rcases hi with hi | ⟨kind, -, hi⟩
    · rw [hi] at ht
      cases ht
    · rw [hi, List.mem_singleton] at ht
      exact .inr ⟨kind, ht⟩
  · exact .inl (List.mem_singleton.mp ht)

theorem operatorWord?_eq_some {w : String} {kind : Kind} (h : operatorWord? w = some kind) :
    kind = .and ∨ kind = .or ∨ kind = .not ∨ kind = .isIn := by
  unfold operatorWord? at h
  split at h <;> cases h <;> decide

theorem symbolTokens_of_keyword {w : String} {kind : Kind} (h : operatorWord? w = some kind) :
    symbolTokens previous kind s = [.bare kind s] := by
  rcases operatorWord?_eq_some h with rfl | rfl | rfl | rfl <;> simp [symbolTokens, signKind]

/-- Every lexeme but trivia becomes something, and what it becomes are its tokens. -/
theorem becomes_of_ne_trivia (previous : Option Kind) (s : Span) (rest : List Char)
    (hl : l ≠ .trivia) : ∃ y, Becomes previous s rest l y := by
  cases l with
  | symbol kind =>
    by_cases h : kind = .parenOpen ∧ endsFactor previous = true
    · obtain ⟨rfl, h⟩ := h
      exact ⟨_, .product h⟩
    · exact ⟨_, .symbol fun hk => by simpa [hk] using h⟩
  | number x => exact ⟨_, .number⟩
  | word w explicit =>
    cases explicit with
    | true => exact ⟨_, .name (by rintro ⟨⟩)⟩
    | false =>
      cases hv : literalWord? w with
      | some v => exact ⟨_, .literal hv⟩
      | none =>
        cases hk : operatorWord? w with
        | some kind => exact ⟨_, .keyword hv hk⟩
        | none => exact ⟨_, .name fun _ => ⟨hv, hk⟩⟩
  | text w => exact ⟨_, .text⟩
  | trivia => exact absurd rfl hl

theorem Becomes.tokensOf (h : Becomes previous s rest l y) :
    tokensOf previous l s rest = y.tokens := by
  cases h with
  | symbol h =>
    refine if_neg fun hp => ?_
    rw [h hp.1] at hp
    cases hp.2
  | product h => exact if_pos ⟨rfl, h⟩
  | number => rfl
  | text => rfl
  | literal h => simp [Scan.tokensOf, h, Share.tokens]
  | keyword hl h => simp [Scan.tokensOf, hl, h, symbolTokens_of_keyword h, Share.tokens]
  | @name w explicit h =>
    cases explicit with
    | true => rfl
    | false => simp [Scan.tokensOf, (h rfl).1, (h rfl).2, nameTokens, Share.tokens]

/-- A scan of a text at `p`, behind a token of kind `previous`. -/
inductive Yields : Option Kind → Place → List Char → List Share → Prop
  | done {previous p} : Yields previous p [] []
  | trivia {previous p cs x ys} (hx : Lexeme.cut? cs = some x) (ht : x.lexeme = .trivia)
      (more : Yields previous (p.advance x.spelling) x.rest ys) : Yields previous p cs ys
  | lexeme {previous p cs x y ys} (hx : Lexeme.cut? cs = some x)
      (hy : Becomes previous (p.spanOf x.spelling) x.rest x.lexeme y)
      (more : Yields (some y.own.kind) (p.advance x.spelling) x.rest ys) :
      Yields previous p cs (y :: ys)

section

variable {σ : Type} {ask : Interceptor σ} {memory : σ} {emitted : List Token} {p : Place}
  {cs : List Char} {x : Lexeme.Cut}

theorem run_none (hcs : cs ≠ []) (hx : Lexeme.cut? cs = none) :
    run ask memory emitted p cs = (.error (.unexpectedInput p cs), memory) := by
  rw [run.eq_def]
  split
  · contradiction
  · split <;> simp_all

theorem run_trivia (hx : Lexeme.cut? cs = some x) (ht : x.lexeme = .trivia) :
    run ask memory emitted p cs = run ask memory emitted (p.advance x.spelling) x.rest := by
  have hne : x.spelling.isEmpty = false := by simpa using (Lexeme.cut?_of hx).1
  rw [run.eq_def]
  split
  · cases hx
  · split
    · simp_all
    · rename_i z hz
      obtain rfl := Option.some.inj (hz.symm.trans hx)
      simp only [hne, Bool.false_eq_true, ↓reduceIte]
      simp [ht]

/-- A lexeme is what the interceptor decides. -/
theorem run_lexeme (hx : Lexeme.cut? cs = some x) (ht : x.lexeme ≠ .trivia) :
    run ask memory emitted p cs =
      match ask memory emitted x.spelling x.rest with
      | (.skip, memory) => run ask memory emitted (p.advance x.spelling) x.rest
      | (.halt, memory) => (.ok (emitted.reverse, some cs), memory)
      | (.accept, memory) =>
        let new := tokensOf (emitted.head?.map Token.kind) x.lexeme (p.spanOf x.spelling) x.rest
        run ask memory (new.reverse ++ emitted) (p.advance x.spelling) x.rest := by
  have hne : x.spelling.isEmpty = false := by simpa using (Lexeme.cut?_of hx).1
  rw [run.eq_def]
  split
  · cases hx
  · split
    · simp_all
    · rename_i z hz
      obtain rfl := Option.some.inj (hz.symm.trans hx)
      rw [hne, if_neg Bool.false_ne_true]
      cases hl : z.lexeme with
      | trivia => exact absurd hl ht
      | _ => rfl

end

/-- The tokens of a scan so far, the latest first, with those of one more lexeme. -/
theorem run_cut {cs : List Char} {x : Lexeme.Cut} (hx : Lexeme.cut? cs = some x)
    (emitted : List Token) (p : Place) :
    run acceptAll () emitted p cs =
      run acceptAll ()
        ((tokensOf (emitted.head?.map Token.kind) x.lexeme (p.spanOf x.spelling) x.rest).reverse ++
          emitted) (p.advance x.spelling) x.rest := by
  by_cases ht : x.lexeme = .trivia
  · rw [run_trivia hx ht, ht]
    rfl
  · rw [run_lexeme hx ht]
    rfl

theorem head?_emitted (y : Share) (emitted : List Token) :
    (y.tokens.reverse ++ emitted).head?.map Token.kind = some y.own.kind := by
  simp [Share.tokens]

theorem Yields.run {p : Place} {cs : List Char} {ys : List Share} (h : Yields previous p cs ys)
    (emitted : List Token) (he : emitted.head?.map Token.kind = previous) :
    run acceptAll () emitted p cs =
      (.ok (emitted.reverse ++ ys.flatMap Share.tokens, none), ()) := by
  induction h generalizing emitted with
  | done => simp [Scan.run]
  | trivia hx ht _ ih =>
    rw [run_cut hx, ht]
    exact ih emitted he
  | @lexeme previous p cs x y ys hx hy _ ih =>
    rw [run_cut hx, he, hy.tokensOf, ih _ (head?_emitted y emitted)]
    simp

/-- A scan that succeeds has come to the end of the text. -/
theorem yields_of_run {emitted ts : List Token} {p : Place} {cs : List Char}
    {left : Option (List Char)} (h : run acceptAll () emitted p cs = (.ok (ts, left), ())) :
    left = none ∧ ∃ ys, Yields (emitted.head?.map Token.kind) p cs ys ∧
      ts = emitted.reverse ++ ys.flatMap Share.tokens := by
  fun_induction run acceptAll () emitted p cs with
  | case1 =>
    cases h
    exact ⟨rfl, [], .done, by simp⟩
  | case2 | case3 => cases h
  | case4 _ _ _ _ _ x hx _ ht ih =>
    obtain ⟨rfl, ys, hys, rfl⟩ := ih h
    exact ⟨rfl, ys, .trivia hx ht hys, rfl⟩
  | case5 _ _ _ _ _ _ _ _ _ ask | case6 _ _ _ _ _ _ _ _ _ ask => cases ask
  | case7 _ emitted p _ _ x hx _ _ _ ht new ih =>
    obtain ⟨rfl, ys, hys, rfl⟩ := ih h
    obtain ⟨y, hy⟩ := becomes_of_ne_trivia (emitted.head?.map Token.kind) (p.spanOf x.spelling)
      x.rest fun hl => ht hl
    have hnew : new = y.tokens := hy.tokensOf
    rw [hnew, head?_emitted] at hys
    exact ⟨rfl, y :: ys, .lexeme hx hy hys, by simp [hnew]⟩

end Scan

/-- A text has the tokens of its lexemes. -/
theorem tokenize_eq_ok {source : String} {stream : TokenStream} :
    tokenize source = .ok stream ↔
      ∃ ys, Scan.Yields none .origin source.toList ys ∧
        stream = .ofTokens (ys.flatMap Scan.Share.tokens) := by
  constructor
  · intro h
    cases hr : Scan.run Scan.acceptAll () [] .origin source.toList with
    | mk outcome memory =>
      cases outcome with
      | error e => simp [tokenize, tokenizeWith, hr, Except.map] at h
      | ok found =>
        obtain ⟨ts, left⟩ := found
        obtain ⟨rfl, ys, hys, rfl⟩ := Scan.yields_of_run hr
        simp only [tokenize, tokenizeWith, hr, Except.map] at h
        cases h
        exact ⟨ys, hys, rfl⟩
  · rintro ⟨ys, hys, rfl⟩
    simp only [tokenize, tokenizeWith, hys.run [] rfl]
    rfl

end Formula
