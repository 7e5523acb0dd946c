import Formula.Proofs.Ancestry
import Formula.Proofs.Interception
import Formula.Proofs.Recognition

/-! Where faults are placed. Main statement: whatever fails when a text is evaluated, a limit apart,
its fault tells the place of the piece of text that is to blame, unless the host has told a place
already. -/
namespace Formula

/-- What the innermost bracket holds behind its last separator: nothing, or the value that its
operators leave. -/
inductive Yard.Holds (env : Environment) (y : Yard) : Option Value → Prop
  | nothing (hy : y.expectsOperand = true) : Holds env y none
  | value {w v vs} (hy : y.expectsOperand = false) (hw : y.reduce env = .ok w)
      (hv : w.values = v :: vs) : Holds env y (some v)

/-- Behind the tokens `ts` the token `t` fails with the fault of a token that is to blame. -/
inductive Yard.Blames (env : Environment) (ts : List Token) (y : Yard) (t : Token) :
    Fault → Token → Prop
  | name {d} (hk : t.kind = .identifier) (hy : y.expectsOperand = true)
      (h : env.resolve t.name = .error d) : Blames env ts y t d t
  | operator {d u} (hu : u ∈ ts) (hy : y.expectsOperand = false)
      (h : y.Halts env u.kind u.span d) : Blames env ts y t d u
  | call {d u args} {last : Option Value} (hk : t.kind = .parenClose)
      (hu : (openers ts).head? = some u) (hc : u.kind = .functionCall)
      (hf : y.frames.head?.map Frame.collected = some (.call u.name args))
      (hl : y.Holds env last) (h : env.call u.name (args ++ last.toList) = .error d) :
      Blames env ts y t d u
  | key {es fs v} (hk : t.kind = .comma ∨ t.kind = .arrayClose)
      (hf : y.frames.head?.map Frame.collected = some (.array es (some (.array fs))))
      (hl : y.Holds env (some v)) : Blames env ts y t .arrayKey t
  | refused {d} (hx : Extendable ts) (ht : ¬ Extendable (ts ++ [t]))
      (hd : d = .unexpected t ∨ d = .unmatched t) : Blames env ts y t d t

/-- The token that is to blame when the tokens have no value, and its fault. -/
inductive Responsible (env : Environment) (ts : List Token) : Fault → Token → Prop
  | token {as t bs r d u} (hts : ts = as ++ t :: bs) (hr : Run.start.steps env as = .ok r)
      (he : r.step env t = .error (d.orSpan u.span)) (h : r.yard.Blames env as t d u) :
      Responsible env ts d u
  | operator {r d u} (hr : Run.start.steps env ts = .ok r) (hu : u ∈ ts)
      (hy : r.yard.expectsOperand = false) (h : r.yard.Halts env u.kind u.span d) :
      Responsible env ts d u
  | last {r t} (hr : Run.start.steps env ts = .ok r) (hy : r.yard.expectsOperand = true)
      (h : ts.getLast? = some t) : Responsible env ts (.unexpectedEnd t) t
  | opener {r t} (hr : Run.start.steps env ts = .ok r) (h : (openers ts).head? = some t) :
      Responsible env ts (.unclosed t.span) t

variable {env : Environment} {ts : List Token} {t u : Token} {d e : Fault}

theorem Yard.Halts.span? {y : Yard} {op : Kind} {s : Span} (h : y.Halts env op s d) :
    d.span? = none ∨ env.Raises d := by
  obtain ⟨ops, vs, -, hfails⟩ := h
  exact hfails.reported.imp_left Fault.Unplaced.span?

theorem Yard.Blames.mem {y : Yard} (h : y.Blames env ts t d u) : u ∈ ts ++ [t] := by
  cases h with
  | name | key | refused => simp
  | operator hu => exact List.mem_append_left _ hu
  | call _ hu => exact List.mem_append_left _ (mem_of_mem_openers (List.mem_of_head? hu))

theorem Yard.Blames.span? {y : Yard} (h : y.Blames env ts t d u) :
    d.span? = none ∨ d.span? = some u.span ∨ env.Raises d := by
  cases h with
  | name _ _ h => exact .inl (env.runtimeOnly_resolve _ d h).span?
  | operator _ _ h => exact h.span?.imp_right .inr
  | call _ _ _ _ _ h =>
    exact ((Environment.reported_of_call h).imp_left Fault.Unplaced.span?).imp_right .inr
  | key => exact .inl rfl
  | refused _ _ hd => rcases hd with rfl | rfl <;> exact .inr (.inl rfl)

theorem Responsible.mem (h : Responsible env ts d u) : u ∈ ts := by
  cases h with
  | @token as t bs _ _ _ hts _ _ h =>
    rw [hts, List.append_cons]
    exact List.mem_append_left _ h.mem
  | operator _ hu => exact hu
  | last _ _ h => exact List.mem_of_getLast? h
  | opener _ h => exact mem_of_mem_openers (List.mem_of_head? h)

/-- Only the host can have told another place. -/
theorem Responsible.span? (h : Responsible env ts d u) :
    d.span? = none ∨ d.span? = some u.span ∨ env.Raises d := by
  cases h with
  | token _ _ _ h => exact h.span?
  | operator _ _ _ h => exact h.span?.imp_right .inr
  | last | opener => exact .inr (.inl rfl)

namespace Run

variable {r : Run}

/-- A bracket that fails to close blames its call or its closer. -/
theorem blames_of_closeValue {f : Frame} {fs : List Frame} {last : Option Value}
    (hr : start.steps env ts = .ok r) (hk : t.kind.isCloser = true) (hf : r.yard.frames = f :: fs)
    (ha : f.collected.isArray = (t.kind == .arrayClose)) (hl : r.yard.Holds env last)
    (h : closeValue env f t last = .error e) :
    ∃ d u, r.yard.Blames env ts t d u ∧ e = d.orSpan u.span := by
  have hhead : r.yard.frames.head?.map Frame.collected = some f.collected := by rw [hf]; rfl
  rcases closeValue_eq_error h with ⟨name, args, d, hc, hd, rfl⟩ | ⟨es, gs, v, hc, rfl, rfl⟩
  · obtain ⟨o, ho, hopened⟩ := opener_of_frame hr hf
    obtain ⟨hcall, rfl⟩ := hopened.call name args hc
    have hne : t.kind ≠ .arrayClose := by simpa [hc, Collected.isArray] using ha
    have hclose : t.kind = .parenClose := (Kind.eq_of_isCloser hk).resolve_right hne
    rw [hc] at hhead
    exact ⟨d, o, .call hclose ho hcall hhead hl hd, by rw [hopened.opened]⟩
  · have hclose : t.kind = .arrayClose := by simpa [hc, Collected.isArray] using ha
    rw [hc] at hhead
    exact ⟨_, t, .key (.inr hclose) hhead hl, rfl⟩

/-- Where the stacks halt, the operator on top is to blame. -/
theorem blames_of_halted {h : Yard.Halted} (hr : start.steps env ts = .ok r)
    (hy : r.yard.expectsOperand = false)
    (hh : ∃ op s d, r.yard.Halts env op s d ∧ h.fault = d.orSpan s) :
    ∃ d u, r.yard.Blames env ts t d u ∧ h.fault = d.orSpan u.span := by
  obtain ⟨op, s, d, hhalts, hfault⟩ := hh
  obtain ⟨u, hu, hown, rfl⟩ := token_of_halts hr hhalts
  exact ⟨d, u, .operator hu hy hown, hfault⟩

theorem holds_of_takeSingle {y w z : Yard} {base : Nat} {s : Span} {v : Value}
    (hy : y.expectsOperand = false) (hw : y.reduce env = .ok w)
    (hv : w.takeSingle base s = .ok (v, z)) : y.Holds env (some v) := by
  obtain ⟨vs, hvs, -⟩ := Yard.takeSingle_eq_ok hv
  exact .value hy hw hvs

/-- A failing evaluation at a token is the fault of a name, an operator, a call or a key. -/
theorem blames_of_interrupted (hr : start.steps env ts = .ok r) (h : r.yard.Interrupted env t e) :
    ∃ d u, r.yard.Blames env ts t d u ∧ e = d.orSpan u.span := by
  have hyard : r.yard.Disciplined := ((steady_start env.limits).steps hr).disciplined
  cases h with
  | name hk hy h => exact ⟨_, t, .name hk hy h, rfl⟩
  | operation _ hy h _ => exact blames_of_halted hr hy (hyard.halts_of_pushBinary hy h)
  | expression _ hy h _ => exact blames_of_halted hr hy (hyard.halts_of_reduce hy h)
  | key hk hy hw hf hv h =>
    obtain ⟨gs, rfl, rfl⟩ := Entries.store_eq_error h
    rw [(Yard.frames_reduce hw).1] at hf
    exact ⟨_, t, .key (.inl hk) (by rw [hf]; rfl) (holds_of_takeSingle hy hw hv), rfl⟩
  | emptyClose hk hf ha hb h =>
    simp only [isBlank, Bool.and_eq_true] at hb
    exact blames_of_closeValue hr hk hf ha (.nothing hb.1.1.1.1) h
  | close hk hf ha hy hw hv h =>
    exact blames_of_closeValue hr hk hf ha (holds_of_takeSingle hy hw hv) h

/-- A step fails for a limit, or some token is to blame. -/
theorem blames_of_step (hr : start.steps env ts = .ok r) (he : r.step env t = .error e)
    (hd : e.details?.isSome = true) : ∃ d u, r.yard.Blames env ts t d u ∧ e = d.orSpan u.span := by
  rcases step_eq_error ((steady_start env.limits).steps hr) he with h | ⟨f, hf, rfl⟩
  · cases h with
    | limit h =>
      rw [h.details?] at hd
      cases hd
    | evaluation _ _ h => exact blames_of_interrupted hr h
  · have ho := steps_outline hr
    have hx : Extendable ts := Outline.extendable_iff.mpr ⟨_, ho⟩
    have hn : ¬ Extendable (ts ++ [t]) := Outline.not_extendable ho hf
    unfold SyntaxFault.at
    split
    · exact ⟨_, t, .refused hx hn (.inr rfl), rfl⟩
    · exact ⟨_, t, .refused hx hn (.inl rfl), rfl⟩

/-- A run that cannot end blames its last token, the opener of a bracket, or an operator. -/
theorem responsible_of_finish {last : Token} (hr : start.steps env ts = .ok r)
    (hlast : ts.getLast? = some last) (he : r.finish env last = .error e) :
    ∃ d u, Responsible env ts d u ∧ e = d.orSpan u.span := by
  have hsteady := (steady_start env.limits).steps hr
  cases unfinished_of_finish hsteady he with
  | call ha =>
    exact ⟨_, _, .last hr (hsteady.awaiting _ ha) (((descends hr).awaiting _).mp ha).1, rfl⟩
  | bracket _ hf =>
    obtain ⟨o, ho, hopened⟩ := opener_of_frame hr hf
    rw [hopened.opened]
    exact ⟨_, o, .opener hr ho, rfl⟩
  | operand _ _ hy => exact ⟨_, last, .last hr hy hlast, rfl⟩
  | operation _ _ hy h =>
    obtain ⟨op, s, d, h, hfault⟩ := hsteady.disciplined.halts_of_reduce hy h
    obtain ⟨u, hu, hown, rfl⟩ := token_of_halts hr h
    exact ⟨d, u, .operator hr hu hy hown, hfault⟩

end Run

/-- Where tokens have no value and no limit fires, one of them is to blame. -/
theorem responsible_of_evaluateTokens (hts : ts ≠ []) (he : evaluateTokens env ts = .error e)
    (hd : e.details?.isSome = true) : ∃ d u, Responsible env ts d u ∧ e = d.orSpan u.span := by
  rw [evaluateTokens_of_ne_nil env hts] at he
  rcases bind_eq_error.mp he with hs | ⟨r, hr, he⟩
  · obtain ⟨as, t, bs, r, hsplit, hr, -, hstep⟩ :=
      Run.steps_eq_error (Run.steady_start env.limits) hs
    obtain ⟨d, u, h, rfl⟩ := Run.blames_of_step hr hstep hd
    exact ⟨d, u, .token hsplit hr hstep h, rfl⟩
  · exact Run.responsible_of_finish hr (List.getLast?_eq_some_getLast hts) he

/-- Lexemes can be cut off the text until `rest` is left behind `before`. -/
inductive Lexeme.Leaves : List Char → List Char → List Char → Prop
  | all {cs} : Leaves cs [] cs
  | cut {cs x before rest} (hx : cut? cs = some x) (more : Leaves x.rest before rest) :
      Leaves cs (x.spelling ++ before) rest

theorem Lexeme.Leaves.append {cs before rest : List Char} (h : Leaves cs before rest) :
    cs = before ++ rest := by
  induction h with
  | all => rfl
  | cut hx _ ih => rw [List.append_assoc, ← ih, (cut?_of hx).2]

namespace Scan

variable {emitted : List Token} {p : Place} {cs : List Char} {calls : List Call}
  {out : Except Fault (List Token × Option (List Char))}

/-- The text at `p` leaves a character that begins no lexeme, and that is the fault. -/
def Stuck (p : Place) (cs : List Char) (e : Fault) : Prop :=
  ∃ before rest, Lexeme.Leaves cs before rest ∧ rest ≠ [] ∧ Lexeme.cut? rest = none ∧
    e = .unexpectedInput (p.advance before) rest

theorem Stuck.cut {x : Lexeme.Cut} (hx : Lexeme.cut? cs = some x)
    (h : Stuck (p.advance x.spelling) x.rest e) : Stuck p cs e := by
  obtain ⟨before, rest, hleaves, hne, hstuck, rfl⟩ := h
  exact ⟨_, rest, .cut hx hleaves, hne, hstuck, by rw [Place.advance_append]⟩

/-- A scan fails only where it is stuck. -/
theorem Follows.stuck_of_error (h : Follows emitted p cs calls out) (he : out = .error e) :
    Stuck p cs e := by
  induction h with
  | done => cases he
  | stuck hcs hx =>
    cases he
    exact ⟨[], _, .all, hcs, hx, rfl⟩
  | trivia hx _ _ ih => exact (ih he).cut hx
  | accept hx _ _ ih => exact (ih he).cut hx
  | skip hx _ _ ih => exact (ih he).cut hx
  | halt => cases he

end Scan

/-- A stretch of the text, with its line and its column. -/
structure Span.Within (source : String) (s : Span) : Prop where
  locates : s.Locates source
  start_le_stop : s.start ≤ s.stop
  stop_le : s.stop ≤ source.utf8ByteSize

/-- The piece of the text that is to blame when the text has no value, and its fault: a character
that begins no lexeme, or a token. -/
inductive Culprit (env : Environment) (source : String) : Fault → Span → Prop
  | character {before rest} (h : Lexeme.Leaves source.toList before rest) (hne : rest ≠ [])
      (hx : Lexeme.cut? rest = none) :
      Culprit env source (.unexpectedInput (Place.origin.advance before) rest)
        ((Place.origin.advance before).spanOf (rest.take 1))
  | token {stream d t} (hs : tokenize source = .ok stream)
      (h : Responsible env stream.tokens d t) : Culprit env source d t.span

/-- Whatever is to blame stands in the text. -/
theorem Culprit.within {source : String} {s : Span} (h : Culprit env source d s) :
    s.Within source := by
  cases h with
  | @character before rest h =>
    have hs : source.toList = before ++ (rest.take 1 ++ rest.drop 1) := by
      rw [List.take_append_drop]
      exact h.append
    have hlocates := Scan.locates_spanOf hs
    exact ⟨hlocates, Place.start_le_stop_spanOf _ _, hlocates.stop_le⟩
  | token hs h =>
    obtain ⟨ys, hys, rfl⟩ := tokenize_eq_ok.mp hs
    obtain ⟨y, hy, ht⟩ := List.mem_flatMap.mp h.mem
    have hstands := (hys.tiling [] rfl).stands rfl y hy
    have hlocates := hstands.locates_of_mem ht
    exact ⟨hlocates, hstands.start_le_stop ht, hlocates.stop_le⟩

theorem Culprit.span? {source : String} {s : Span} (h : Culprit env source d s) :
    d.span? = none ∨ d.span? = some s ∨ env.Raises d := by
  cases h with
  | character => exact .inr (.inl rfl)
  | token _ h => exact h.span?

/-- Whatever goes wrong when a text is read or evaluated, something in the text is to blame. -/
theorem culprit_of_evaluate {source : String} (h : env.evaluate source = .error e)
    (hd : e.details?.isSome = true) (he : e ≠ .emptyExpression) :
    ∃ d s, Culprit env source d s ∧ e = d.orSpan s := by
  unfold Environment.evaluate at h
  split at h
  · cases h
    cases hd
  · rcases bind_eq_error.mp h with h | ⟨stream, hs, h⟩
    · obtain ⟨calls, -, hfollows⟩ :=
        Scan.follows_of_run Scan.acceptAll () [] [] .origin source.toList
      obtain ⟨before, rest, hleaves, hne, hx, rfl⟩ := hfollows.stuck_of_error (map_eq_error.mp h)
      exact ⟨_, _, .character hleaves hne hx, rfl⟩
    · have hts : stream.tokens ≠ [] := by
        intro hnil
        rw [hnil] at h
        cases h
        exact he rfl
      obtain ⟨d, u, hu, rfl⟩ := responsible_of_evaluateTokens hts h hd
      exact ⟨d, u.span, .token hs hu, rfl⟩

/-- Whatever goes wrong when a text is read or evaluated, its fault tells a place, unless a limit
fires or there is nothing to evaluate. The place is that of the piece of text to blame, unless the
host's fault tells one already, which it keeps. -/
theorem evaluate_placed {source : String} (h : env.evaluate source = .error e)
    (hd : e.details?.isSome = true) (he : e ≠ .emptyExpression) :
    ∃ d s, Culprit env source d s ∧ s.Within source ∧ e = d.orSpan s ∧ e.span?.isSome = true ∧
      (e.span? = some s ∨ env.Raises d ∧ e = d) := by
  obtain ⟨d, s, hculprit, rfl⟩ := culprit_of_evaluate h hd he
  have hspan := Fault.span?_orSpan hd
  refine ⟨d, s, hculprit, hculprit.within, rfl, by rw [hspan]; rfl, ?_⟩
  rcases hculprit.span? with hd' | hd' | hraises
  · exact .inl (by rw [hspan, hd']; rfl)
  · exact .inl (by rw [hspan, hd']; rfl)
  · cases hd' : d.span? with
    | none => exact .inl (by rw [hspan, hd']; rfl)
    | some s' => exact .inr ⟨hraises, Fault.orSpan_eq_self s hd'⟩

/-- A strict environment without names. -/
def nameless : Environment := Environment.empty.setStrict true

/-- A name that is not known, in a bracket that is open. -/
theorem evaluate_placed_unknown :
    nameless.evaluate "(é" = .error ((Fault.undefinedConstant "é").withSpan ⟨1, 3, 1, 2⟩) ∧
      ∃ d, Culprit nameless "(é" d ⟨1, 3, 1, 2⟩ ∧ Span.Within "(é" ⟨1, 3, 1, 2⟩ ∧
        (Fault.undefinedConstant "é").withSpan ⟨1, 3, 1, 2⟩ = d.orSpan ⟨1, 3, 1, 2⟩ := by
  have h : nameless.evaluate "(é" =
      .error ((Fault.undefinedConstant "é").withSpan ⟨1, 3, 1, 2⟩) := by cbv
  obtain ⟨d, s, hculprit, hwithin, heq, -, hspan | ⟨hraises, -⟩⟩ :=
    evaluate_placed h rfl (by rintro ⟨⟩)
  · cases hspan
    exact ⟨h, d, hculprit, hwithin, heq⟩
  · exact absurd hraises.hosted (Environment.not_hosted (fun _ => rfl) (fun _ => rfl) d)

end Formula
