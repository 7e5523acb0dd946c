import Formula.Proofs.Layout

/-! Scans under the eyes of an interceptor. Main statement: whatever an interceptor answers, it is
asked once about each lexeme that the scan comes to, in the order of the text, and its answers
decide what the tokens are and where the scan ends. -/
namespace Formula

namespace Lexeme

/-- The lexemes of a text that are no trivia, as far as it can be cut. -/
def significant (cs : List Char) : List Cut :=
  match _cut : cut? cs with
  | none => []
  | some x =>
    match x.lexeme with
    | .trivia => significant x.rest
    | _ => x :: significant x.rest
termination_by cs.length
decreasing_by all_goals exact (cut?_of _cut).length_lt

variable {cs : List Char} {x : Cut}

theorem significant_none (hx : cut? cs = none) : significant cs = [] := by
  rw [significant.eq_def]
  split <;> simp_all

theorem significant_trivia (hx : cut? cs = some x) (ht : x.lexeme = .trivia) :
    significant cs = significant x.rest := by
  rw [significant.eq_def]
  split
  · simp_all
  · rename_i z hz
    obtain rfl := Option.some.inj (hz.symm.trans hx)
    simp [ht]

theorem significant_lexeme (hx : cut? cs = some x) (ht : x.lexeme ≠ .trivia) :
    significant cs = x :: significant x.rest := by
  rw [significant.eq_def]
  split
  · simp_all
  · rename_i z hz
    obtain rfl := Option.some.inj (hz.symm.trans hx)
    split
    · contradiction
    · rfl

end Lexeme

namespace Scan

/-- What an interceptor was shown, the tokens in their order, and what it answered. -/
structure Call where
  emitted : List Token
  spelling : List Char
  rest : List Char
  verdict : Verdict

/-- The same interceptor, with an account of the calls. -/
def Interceptor.recorded {σ : Type} (ask : Interceptor σ) : Interceptor (σ × List Call) :=
  fun memory emitted spelling rest =>
    let (verdict, next) := ask memory.1 emitted spelling rest
    (verdict, next, memory.2 ++ [⟨emitted.reverse, spelling, rest, verdict⟩])

/-- A scan of a text at `p`, behind the tokens `emitted`, the latest first: the calls of its
interceptor, and what comes of it. -/
inductive Follows : List Token → Place → List Char → List Call →
    Except Fault (List Token × Option (List Char)) → Prop
  | done {emitted p} : Follows emitted p [] [] (.ok (emitted.reverse, none))
  | stuck {emitted p cs} (hcs : cs ≠ []) (hx : Lexeme.cut? cs = none) :
      Follows emitted p cs [] (.error (.unexpectedInput p cs))
  | trivia {emitted p cs x calls out} (hx : Lexeme.cut? cs = some x) (ht : x.lexeme = .trivia)
      (more : Follows emitted (p.advance x.spelling) x.rest calls out) :
      Follows emitted p cs calls out
  | accept {emitted p cs x y calls out} (hx : Lexeme.cut? cs = some x)
      (hy : Becomes (emitted.head?.map Token.kind) (p.spanOf x.spelling) x.rest x.lexeme y)
      (more : Follows (y.tokens.reverse ++ emitted) (p.advance x.spelling) x.rest calls out) :
      Follows emitted p cs (⟨emitted.reverse, x.spelling, x.rest, .accept⟩ :: calls) out
  | skip {emitted p cs x calls out} (hx : Lexeme.cut? cs = some x) (ht : x.lexeme ≠ .trivia)
      (more : Follows emitted (p.advance x.spelling) x.rest calls out) :
      Follows emitted p cs (⟨emitted.reverse, x.spelling, x.rest, .skip⟩ :: calls) out
  | halt {emitted p cs x} (hx : Lexeme.cut? cs = some x) (ht : x.lexeme ≠ .trivia) :
      Follows emitted p cs [⟨emitted.reverse, x.spelling, x.rest, .halt⟩]
        (.ok (emitted.reverse, some cs))

section

variable {σ : Type}

/-- An account of the calls changes nothing, and the calls are those of the scan. -/
theorem follows_of_run (ask : Interceptor σ) (memory : σ) (log : List Call) (emitted : List Token)
    (p : Place) (cs : List Char) :
    ∃ calls, run ask.recorded (memory, log) emitted p cs =
        ((run ask memory emitted p cs).1, (run ask memory emitted p cs).2, log ++ calls) ∧
      Follows emitted p cs calls (run ask memory emitted p cs).1 := by
  induction hn : cs.length using Nat.strong_induction_on generalizing memory log emitted p cs with
  | _ n ih =>
    subst hn
    cases hx : Lexeme.cut? cs with
    | none =>
      by_cases hcs : cs = []
      · subst hcs
        exact ⟨[], by simp [run], by simpa [run] using Follows.done⟩
      · rw [run_none hcs hx, run_none hcs hx]
        exact ⟨[], by simp, .stuck hcs hx⟩
    | some x =>
      have hless := (Lexeme.cut?_of hx).length_lt
      by_cases ht : x.lexeme = .trivia
      · rw [run_trivia hx ht, run_trivia hx ht]
        obtain ⟨calls, hrun, hcalls⟩ := ih _ hless memory log emitted _ _ rfl
        exact ⟨calls, hrun, .trivia hx ht hcalls⟩
      · rw [run_lexeme hx ht, run_lexeme hx ht]
        simp only [Interceptor.recorded]
        -- Each answer goes into the account before the scan goes on.
        obtain ⟨verdict, next⟩ := ask memory emitted x.spelling x.rest
        cases verdict with
        | skip =>
          obtain ⟨calls, hrun, hcalls⟩ := ih _ hless next
            (log ++ [⟨emitted.reverse, x.spelling, x.rest, .skip⟩]) emitted
            (p.advance x.spelling) _ rfl
          exact ⟨_, by simpa using hrun, .skip hx ht hcalls⟩
        | halt => exact ⟨_, rfl, .halt hx ht⟩
        | accept =>
          obtain ⟨y, hy⟩ := becomes_of_ne_trivia (emitted.head?.map Token.kind)
            (p.spanOf x.spelling) x.rest ht
          obtain ⟨calls, hrun, hcalls⟩ := ih _ hless next
            (log ++ [⟨emitted.reverse, x.spelling, x.rest, .accept⟩])
            (y.tokens.reverse ++ emitted) (p.advance x.spelling) _ rfl
          simp only [hy.tokensOf]
          exact ⟨_, by simpa using hrun, .accept hx hy hcalls⟩

end

variable {source : String} {emitted ts : List Token} {p : Place} {cs : List Char}
  {calls : List Call} {left : Option (List Char)}
  {out : Except Fault (List Token × Option (List Char))}

/-- The lexeme that an interceptor was shown, without what it was asked about it. -/
def Call.shown (c : Call) : List Char × List Char := (c.spelling, c.rest)

/-- The byte offset of the lexeme. -/
def Call.offset (source : String) (c : Call) : Nat :=
  source.utf8ByteSize - bytes (c.spelling ++ c.rest)

def cutShown (x : Lexeme.Cut) : List Char × List Char := (x.spelling, x.rest)

namespace Follows

/-- As long as the interceptor does not stop the scan, it is asked about every lexeme. -/
theorem shown_eq (h : Follows emitted p cs calls out) (hn : ∀ c ∈ calls, c.verdict ≠ .halt) :
    calls.map Call.shown = (Lexeme.significant cs).map cutShown := by
  induction h with
  | done => rw [Lexeme.significant_none rfl]; rfl
  | stuck hcs hx => rw [Lexeme.significant_none hx]; rfl
  | trivia hx ht _ ih =>
    rw [Lexeme.significant_trivia hx ht]
    exact ih hn
  | accept hx hy _ ih =>
    rw [Lexeme.significant_lexeme hx hy.ne_trivia, List.map_cons, List.map_cons,
      ih fun c hc => hn c (List.mem_cons_of_mem _ hc)]
    rfl
  | skip hx ht _ ih =>
    rw [Lexeme.significant_lexeme hx ht, List.map_cons, List.map_cons,
      ih fun c hc => hn c (List.mem_cons_of_mem _ hc)]
    rfl
  | halt => exact absurd rfl (hn _ List.mem_cons_self)

theorem shown_prefix (h : Follows emitted p cs calls out) :
    calls.map Call.shown <+: (Lexeme.significant cs).map cutShown := by
  induction h with
  | done | stuck => exact List.nil_prefix
  | trivia hx ht _ ih =>
    rw [Lexeme.significant_trivia hx ht]
    exact ih
  | accept hx hy _ ih =>
    rw [Lexeme.significant_lexeme hx hy.ne_trivia]
    exact List.cons_prefix_cons.mpr ⟨rfl, ih⟩
  | skip hx ht _ ih =>
    rw [Lexeme.significant_lexeme hx ht]
    exact List.cons_prefix_cons.mpr ⟨rfl, ih⟩
  | halt hx ht =>
    rw [Lexeme.significant_lexeme hx ht]
    exact List.cons_prefix_cons.mpr ⟨rfl, List.nil_prefix⟩

/-- A scan that is stopped ends there, with the text that is left. -/
theorem out_of_halt (h : Follows emitted p cs calls out) {as bs : List Call} {c : Call}
    (hc : calls = as ++ c :: bs) (hv : c.verdict = .halt) :
    bs = [] ∧ ∃ ts, out = .ok (ts, some (c.spelling ++ c.rest)) := by
  induction h generalizing as with
  | done | stuck => simp at hc
  | trivia _ _ _ ih => exact ih hc
  | accept _ _ _ ih | skip _ _ _ ih =>
    rcases as with _ | ⟨a, as⟩
    · obtain ⟨rfl, -⟩ := List.cons.inj hc
      cases hv
    · exact ih (List.cons.inj hc).2
  | @halt emitted p cs x hx ht =>
    rcases as with _ | ⟨a, as⟩
    · obtain ⟨rfl, rfl⟩ := List.cons.inj hc
      exact ⟨rfl, emitted.reverse, by rw [(Lexeme.cut?_of hx).2]⟩
    · simp at hc

/-- A scan that is not stopped leaves nothing. -/
theorem left_eq_none (h : Follows emitted p cs calls out) (hn : ∀ c ∈ calls, c.verdict ≠ .halt)
    (hout : out = .ok (ts, left)) : left = none := by
  induction h with
  | done =>
    cases hout
    rfl
  | stuck => cases hout
  | trivia _ _ _ ih => exact ih hn hout
  | accept _ _ _ ih | skip _ _ _ ih =>
    exact ih (fun c hc => hn c (List.mem_cons_of_mem _ hc)) hout
  | halt => exact absurd rfl (hn _ List.mem_cons_self)

/-- The tokens are those so far and later ones, and all that the interceptor is shown are the first
ones of them. -/
theorem emitted_prefix (h : Follows emitted p cs calls out) (hout : out = .ok (ts, left)) :
    emitted.reverse <+: ts ∧ ∀ c ∈ calls, c.emitted <+: ts := by
  induction h with
  | done | halt =>
    cases hout
    simp
  | stuck => cases hout
  | trivia _ _ _ ih => exact ih hout
  | accept _ _ _ ih =>
    obtain ⟨hts, hcalls⟩ := ih hout
    have hshown := List.IsPrefix.trans (List.prefix_append _ _) (List.reverse_append ▸ hts)
    exact ⟨hshown, List.forall_mem_cons.mpr ⟨hshown, hcalls⟩⟩
  | skip _ _ _ ih =>
    obtain ⟨hts, hcalls⟩ := ih hout
    exact ⟨hts, List.forall_mem_cons.mpr ⟨hts, hcalls⟩⟩

/-- A scan whose lexemes are all accepted is the scan without an interceptor. -/
theorem run_acceptAll (h : Follows emitted p cs calls out)
    (ha : ∀ c ∈ calls, c.verdict = .accept) : run acceptAll () emitted p cs = (out, ()) := by
  induction h with
  | done => simp [run]
  | stuck hcs hx => exact run_none hcs hx
  | trivia hx ht _ ih =>
    rw [run_trivia hx ht]
    exact ih ha
  | accept hx hy _ ih =>
    rw [run_cut hx, hy.tokensOf]
    exact ih fun c hc => ha c (List.mem_cons_of_mem _ hc)
  | skip | halt => cases ha _ List.mem_cons_self

end Follows

/-- A scan that has come to `p`, with `cs` in front of it, and its tokens all behind it. -/
structure Stage (source : String) (emitted : List Token) (p : Place) (cs : List Char) : Prop where
  place : ∃ before, source.toList = before ++ cs ∧ p = Place.origin.advance before
  behind : ∀ t ∈ emitted, t.span.start < p.offset ∧ t.span.stop ≤ p.offset

theorem Becomes.mem_tokens {previous : Option Kind} {s : Span} {rest : List Char} {l : Lexeme}
    {y : Share} {t : Token} (hy : Becomes previous s rest l y) (ht : t ∈ y.tokens) :
    t.span.start = s.start ∧ (t.span.stop = s.start ∨ t.span.stop = s.stop) := by
  have hown := hy.span_own
  rcases Share.own_or_implied hy.inserted_eq ht with rfl | ⟨kind, rfl⟩
  · rw [hown]
    exact ⟨rfl, .inr rfl⟩
  · rw [hown]
    exact ⟨rfl, .inl rfl⟩

namespace Stage

variable {x : Lexeme.Cut} {y : Share}

theorem start (source : String) : Stage source [] .origin source.toList :=
  ⟨⟨[], rfl, rfl⟩, by simp⟩

theorem offset_eq (h : Stage source emitted p cs) :
    source.utf8ByteSize - bytes cs = p.offset := by
  obtain ⟨before, hs, rfl⟩ := h.place
  rw [utf8ByteSize_eq hs, Place.advance_origin]
  exact Nat.add_sub_cancel _ _

theorem offset_lt (hx : Lexeme.cut? cs = some x) (p : Place) :
    p.offset + bytes x.spelling = (p.advance x.spelling).offset ∧ 0 < bytes x.spelling :=
  ⟨(p.offset_advance x.spelling).symm, bytes_pos (Lexeme.cut?_of hx).1⟩

theorem advance (h : Stage source emitted p cs) (hx : Lexeme.cut? cs = some x) :
    Stage source emitted (p.advance x.spelling) x.rest := by
  obtain ⟨before, hs, rfl⟩ := h.place
  obtain ⟨hoffset, -⟩ := offset_lt hx (Place.origin.advance before)
  refine ⟨⟨before ++ x.spelling, ?_, (Place.advance_append _ _ _).symm⟩, fun t ht => ?_⟩
  · rw [hs, List.append_assoc, (Lexeme.cut?_of hx).2]
  · have hbehind := h.behind t ht
    omega

theorem emit (h : Stage source emitted p cs) (hx : Lexeme.cut? cs = some x)
    (hy : Becomes (emitted.head?.map Token.kind) (p.spanOf x.spelling) x.rest x.lexeme y) :
    Stage source (y.tokens.reverse ++ emitted) (p.advance x.spelling) x.rest := by
  obtain ⟨hplace, hbehind⟩ := h.advance hx
  obtain ⟨hoffset, hpos⟩ := offset_lt hx p
  refine ⟨hplace, fun t ht => ?_⟩
  rcases List.mem_append.mp ht with ht | ht
  · obtain ⟨hstart, hstop⟩ := hy.mem_tokens (List.mem_reverse.mp ht)
    simp only [Place.spanOf] at hstart hstop
    omega
  · exact hbehind t ht

end Stage

namespace Follows

/-- Tokens that are still to come stand in front of the scan. -/
theorem later (h : Follows emitted p cs calls out) (hout : out = .ok (ts, left)) :
    ∃ later, ts = emitted.reverse ++ later ∧ ∀ t ∈ later, p.offset ≤ t.span.start := by
  induction h with
  | done | halt =>
    cases hout
    exact ⟨[], by simp, by simp⟩
  | stuck => cases hout
  | @trivia _ p _ _ _ _ hx _ _ ih | @skip _ p _ _ _ _ hx _ _ ih =>
    obtain ⟨hoffset, -⟩ := Stage.offset_lt hx p
    obtain ⟨later, rfl, hlater⟩ := ih hout
    refine ⟨later, rfl, fun t ht => ?_⟩
    have hle := hlater t ht
    omega
  | @accept _ p _ _ y _ _ hx hy _ ih =>
    obtain ⟨hoffset, -⟩ := Stage.offset_lt hx p
    obtain ⟨later, rfl, hlater⟩ := ih hout
    refine ⟨y.tokens ++ later, by simp, fun t ht => ?_⟩
    rcases List.mem_append.mp ht with ht | ht
    · exact (hy.mem_tokens ht).1.ge
    · have hle := hlater t ht
      omega

/-- No token stands where a lexeme was left out. -/
theorem apart_of_skip (h : Follows emitted p cs calls out) (hs : Stage source emitted p cs)
    (hout : out = .ok (ts, left)) {c : Call} (hc : c ∈ calls) (hv : c.verdict = .skip) :
    ∀ t ∈ ts,
      t.span.stop ≤ c.offset source ∨ c.offset source + bytes c.spelling ≤ t.span.start := by
  induction h with
  | done | stuck => cases hc
  | trivia hx _ _ ih => exact ih (hs.advance hx) hout hc
  | accept hx hy _ ih =>
    rcases List.mem_cons.mp hc with rfl | hc
    · cases hv
    · exact ih (hs.emit hx hy) hout hc
  | @skip emitted p cs x calls out hx _ more ih =>
    rcases List.mem_cons.mp hc with rfl | hc
    · obtain ⟨hoffset, -⟩ := Stage.offset_lt hx p
      have hplace : Call.offset source ⟨emitted.reverse, x.spelling, x.rest, .skip⟩ = p.offset := by
        rw [Call.offset, (Lexeme.cut?_of hx).2, hs.offset_eq]
      obtain ⟨later, rfl, hlater⟩ := more.later hout
      intro t ht
      rw [hplace]
      rcases List.mem_append.mp ht with ht | ht
      · exact .inl (hs.behind t (List.mem_reverse.mp ht)).2
      · exact .inr (hoffset ▸ hlater t ht)
    · exact ih (hs.advance hx) hout hc
  | halt =>
    rw [List.mem_singleton] at hc
    subst hc
    cases hv

/-- All tokens of a scan that was stopped stand in front of the text that it left. -/
theorem before_left (h : Follows emitted p cs calls out) (hs : Stage source emitted p cs)
    {rest : List Char} (hout : out = .ok (ts, some rest)) :
    ∀ t ∈ ts, t.span.start < source.utf8ByteSize - bytes rest := by
  induction h with
  | done | stuck => cases hout
  | trivia hx _ _ ih | skip hx _ _ ih => exact ih (hs.advance hx) hout
  | accept hx hy _ ih => exact ih (hs.emit hx hy) hout
  | halt =>
    cases hout
    intro t ht
    rw [hs.offset_eq]
    exact (hs.behind t (List.mem_reverse.mp ht)).1

/-- A scan that was stopped, but left nothing out before, has the first tokens of the whole scan,
and the others do not stand in front of the text that it left. -/
theorem rest_of_full (h : Follows emitted p cs calls out) (hs : Stage source emitted p cs)
    {rest : List Char} (hout : out = .ok (ts, some rest)) (ha : ∀ c ∈ calls, c.verdict ≠ .skip)
    {full : List Token} (hfull : run acceptAll () emitted p cs = (.ok (full, none), ())) :
    ∃ later, full = ts ++ later ∧ ∀ t ∈ later, source.utf8ByteSize - bytes rest ≤ t.span.start := by
  induction h with
  | done | stuck => cases hout
  | trivia hx ht _ ih =>
    rw [run_trivia hx ht] at hfull
    exact ih (hs.advance hx) hout ha hfull
  | accept hx hy _ ih =>
    rw [run_cut hx, hy.tokensOf] at hfull
    exact ih (hs.emit hx hy) hout (fun c hc => ha c (List.mem_cons_of_mem _ hc)) hfull
  | skip => exact absurd rfl (ha _ List.mem_cons_self)
  | halt =>
    cases hout
    obtain ⟨-, ys, hys, rfl⟩ := yields_of_run hfull
    obtain ⟨before, hsource, hp⟩ := hs.place
    refine ⟨_, rfl, fun t ht => ?_⟩
    have hle := (hys.tiling before hp).le_start t ht
    rw [hs.offset_eq, hp, Place.advance_origin]
    exact hle

end Follows

theorem Follows.located (h : Follows emitted p cs calls out) (hs : Stage source emitted p cs)
    {c : Call} (hc : c ∈ calls) :
    (String.Pos.Raw.mk (c.offset source)).IsValid source ∧
      slice source (c.offset source) source.utf8ByteSize = c.spelling ++ c.rest := by
  have here : ∀ {emitted p cs x} {c : Call}, Stage source emitted p cs → Lexeme.cut? cs = some x →
      c.shown = cutShown x → (String.Pos.Raw.mk (c.offset source)).IsValid source ∧
        slice source (c.offset source) source.utf8ByteSize = c.spelling ++ c.rest := by
    intro emitted p cs x c hs hx hc
    obtain ⟨before, hsource, hp⟩ := hs.place
    obtain ⟨hspelling, hrest⟩ := Prod.mk.inj hc
    rw [Call.offset, hspelling, hrest, (Lexeme.cut?_of hx).2, hs.offset_eq, hp,
      Place.advance_origin]
    exact ⟨isValid_bytes hsource, slice_behind hsource⟩
  induction h with
  | done | stuck => cases hc
  | trivia hx _ _ ih => exact ih (hs.advance hx) hc
  | accept hx hy _ ih =>
    rcases List.mem_cons.mp hc with rfl | hc
    · exact here hs hx rfl
    · exact ih (hs.emit hx hy) hc
  | skip hx _ _ ih =>
    rcases List.mem_cons.mp hc with rfl | hc
    · exact here hs hx rfl
    · exact ih (hs.advance hx) hc
  | halt hx =>
    rw [List.mem_singleton.mp hc]
    exact here hs hx rfl

end Scan

open Scan in
/-- What an interceptor was called for, in the order of the calls, and what its answers did. -/
structure Intercepted (source : String) (calls : List Call) (result : Except Fault TokenStream) :
    Prop where
  shown : calls.map Call.shown <+: (Lexeme.significant source.toList).map cutShown
  shown_all : (∀ c ∈ calls, c.verdict ≠ .halt) →
    calls.map Call.shown = (Lexeme.significant source.toList).map cutShown
  located : ∀ c ∈ calls, (String.Pos.Raw.mk (c.offset source)).IsValid source ∧
    slice source (c.offset source) source.utf8ByteSize = c.spelling ++ c.rest
  emitted : ∀ stream, result = .ok stream → ∀ c ∈ calls, c.emitted <+: stream.tokens
  accepted : (∀ c ∈ calls, c.verdict = .accept) → result = tokenize source
  halted : ∀ as c bs, calls = as ++ c :: bs → c.verdict = .halt →
    bs = [] ∧ ∃ stream, result = .ok stream ∧
      stream.remainder = some (String.ofList (c.spelling ++ c.rest)) ∧
      (∀ t ∈ stream.tokens, t.span.start < c.offset source) ∧
      ((∀ d ∈ as, d.verdict = .accept) → ∀ full, tokenize source = .ok full →
        stream.tokens = full.tokens.filter fun t => t.span.start < c.offset source)
  finished : (∀ c ∈ calls, c.verdict ≠ .halt) → ∀ stream, result = .ok stream →
    stream.remainder = none
  skipped : ∀ stream, result = .ok stream → ∀ c ∈ calls, c.verdict = .skip →
    ∀ t ∈ stream.tokens,
      t.span.stop ≤ c.offset source ∨ c.offset source + bytes c.spelling ≤ t.span.start

namespace Scan

/-- The stream that a scan ends with. -/
def streamOf (out : Except Fault (List Token × Option (List Char))) : Except Fault TokenStream :=
  out.map fun (tokens, rest) => ⟨tokens, 0, rest.map String.ofList⟩

theorem streamOf_eq_ok {stream : TokenStream} (h : streamOf out = .ok stream) :
    ∃ left, out = .ok (stream.tokens, left) ∧ stream.remainder = left.map String.ofList := by
  obtain ⟨⟨ts, left⟩, hout, rfl⟩ := map_eq_ok.mp h
  exact ⟨left, hout, rfl⟩

theorem Follows.intercepted (h : Follows [] .origin source.toList calls out) :
    Intercepted source calls (streamOf out) where
  shown := h.shown_prefix
  shown_all := h.shown_eq
  located := fun c hc => h.located (.start source) hc
  emitted := by
    intro stream hstream
    obtain ⟨left, hout, -⟩ := streamOf_eq_ok hstream
    exact (h.emitted_prefix hout).2
  accepted := by
    intro ha
    simp only [tokenize, tokenizeWith, h.run_acceptAll ha]
    rfl
  halted := by
    intro as c bs hcalls hv
    obtain ⟨rfl, ts, hout⟩ := h.out_of_halt hcalls hv
    have hbefore := h.before_left (.start source) hout
    refine ⟨rfl, ⟨ts, 0, some _⟩, by rw [hout]; rfl, rfl, hbefore, fun ha full hfull => ?_⟩
    have hskip : ∀ d ∈ calls, d.verdict ≠ .skip := by
      intro d hd
      rw [hcalls, List.mem_append, List.mem_singleton] at hd
      rcases hd with hd | rfl
      · simp [ha d hd]
      · simp [hv]
    obtain ⟨ys, hys, rfl⟩ := tokenize_eq_ok.mp hfull
    obtain ⟨later, hlater, hle⟩ := h.rest_of_full (.start source) hout hskip (hys.run [] rfl)
    have hts : ts.filter (fun t => t.span.start < c.offset source) = ts :=
      List.filter_eq_self.mpr fun t ht => decide_eq_true (hbefore t ht)
    have hnone : later.filter (fun t => t.span.start < c.offset source) = [] :=
      List.filter_eq_nil_iff.mpr fun t ht hlt => (hle t ht).not_gt (of_decide_eq_true hlt)
    have htokens : (TokenStream.ofTokens (ys.flatMap Share.tokens)).tokens = ts ++ later := hlater
    rw [htokens, List.filter_append, hts, hnone, List.append_nil]
  finished := by
    intro hn stream hstream
    obtain ⟨left, hout, hremainder⟩ := streamOf_eq_ok hstream
    rw [hremainder, h.left_eq_none hn hout]
    rfl
  skipped := by
    intro stream hstream c hc hv
    obtain ⟨left, hout, -⟩ := streamOf_eq_ok hstream
    exact h.apart_of_skip (.start source) hout hc hv

end Scan

/-- An interceptor is asked once about each lexeme that a scan comes to, in the order of the text,
and what it answers decides what becomes of the scan. To write down its calls changes nothing. -/
theorem tokenizeWith_intercepted {σ : Type} (ask : Scan.Interceptor σ) (memory : σ)
    (source : String) :
    ∃ calls, tokenizeWith ask.recorded (memory, []) source =
        ((tokenizeWith ask memory source).1, (tokenizeWith ask memory source).2, calls) ∧
      Intercepted source calls (tokenizeWith ask memory source).1 := by
  obtain ⟨calls, hrun, hfollows⟩ :=
    Scan.follows_of_run ask memory [] [] .origin source.toList
  refine ⟨calls, ?_, hfollows.intercepted⟩
  simp only [tokenizeWith, hrun]
  rfl

end Formula
