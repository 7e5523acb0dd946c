import Formula.Proofs.Metering

/-! An evaluation depends on nothing in its environment but what its tokens mention. Main statement:
where two environments agree on the names, the calls and the operators of the tokens, the results
are equal, whether they are values or faults. -/
namespace Formula

/-- An operator does the same in both environments. -/
structure SameRule (env env' : Environment) (op : Kind) : Prop where
  unary : op.isPrefixOperator = true → ∀ v, env.prefixRule op v = env'.prefixRule op v
  binary : op.isPrefixOperator = false → ∀ u v, env.infixRule op u v = env'.infixRule op u v

/-- Both environments agree on everything that the tokens mention. -/
structure Agrees (env env' : Environment) (ts : List Token) : Prop where
  names : ∀ t ∈ ts, t.kind = .identifier → env.resolve t.name = env'.resolve t.name
  calls : ∀ t ∈ ts, t.kind = .functionCall → ∀ vs, env.call t.name vs = env'.call t.name vs
  rules : ∀ t ∈ ts, t.kind.isOperator = true → SameRule env env' t.kind

theorem Agrees.tail {env env' : Environment} {t : Token} {ts : List Token}
    (h : Agrees env env' (t :: ts)) : Agrees env env' ts :=
  ⟨fun u hu => h.names u (List.mem_cons_of_mem t hu),
    fun u hu => h.calls u (List.mem_cons_of_mem t hu),
    fun u hu => h.rules u (List.mem_cons_of_mem t hu)⟩

namespace Yard

/-- Both environments agree on everything that the stacks still wait for. -/
structure Alike (env env' : Environment) (y : Yard) : Prop where
  rules : ∀ op s, .operator op s ∈ y.operators → SameRule env env' op
  calls : ∀ f ∈ y.frames, ∀ name args, f.collected = .call name args →
    ∀ vs, env.call name vs = env'.call name vs

variable {env env' : Environment} {y z : Yard} {floor : Nat} {op : Kind} {s : Span}
  {ops : List Stacked} {t : Token}

theorem applyOperator_congr (h : SameRule env env' op) (vs : List Value) :
    applyOperator env floor op s vs = applyOperator env' floor op s vs := by
  simp only [applyOperator]
  split
  · rfl
  · cases hop : op.isPrefixOperator with
    | true => simp only [↓reduceIte, h.unary hop]
    | false => simp only [Bool.false_eq_true, ↓reduceIte, h.binary hop]

theorem applyWhile_congr {ready : Kind → Bool}
    (h : ∀ op s, .operator op s ∈ ops → SameRule env env' op) (vs : List Value) :
    applyWhile env floor ready ops vs = applyWhile env' floor ready ops vs := by
  induction ops generalizing vs with
  | nil => rfl
  | cons o ops ih =>
    cases o with
    | marker => rfl
    | operator op s =>
      have hmore := ih fun op s ho => h op s (List.mem_cons_of_mem _ ho)
      simp only [applyWhile, applyOperator_congr (h op s List.mem_cons_self), hmore]

namespace Alike

theorem reduce_eq (h : y.Alike env env') : y.reduce env = y.reduce env' := by
  simp only [reduce, applyWhile_congr h.rules]

theorem pushBinary_eq (h : y.Alike env env') (op : Kind) (s : Span) :
    y.pushBinary env op s = y.pushBinary env' op s := by
  simp only [pushBinary, applyWhile_congr h.rules]

theorem onComma_eq (h : y.Alike env env') (t : Token) :
    Run.onComma env y t = Run.onComma env' y t := by
  simp only [Run.onComma, h.reduce_eq]

theorem onArrow_eq (h : y.Alike env env') (t : Token) :
    Run.onArrow env y t = Run.onArrow env' y t := by
  simp only [Run.onArrow, h.reduce_eq]

theorem onInfix_eq (h : y.Alike env env') (t : Token) :
    Run.onInfix env y t = Run.onInfix env' y t := by
  simp only [Run.onInfix, h.pushBinary_eq]

/-- The value of a bracket is the same, though its function may take other times. -/
theorem closeValue_eq {f : Frame} (h : ∀ name args, f.collected = .call name args →
    ∀ vs, env.call name vs = env'.call name vs) (t : Token) (last : Option Value) :
    (Run.closeValue env f t last).map Prod.fst = (Run.closeValue env' f t last).map Prod.fst := by
  cases hc : f.collected with
  | group => simp only [Run.closeValue, hc]
  | call name args =>
    simp only [Run.closeValue, hc, h name args hc]
    cases env'.call name (args ++ last.toList) <;> rfl
  | array es key => simp only [Run.closeValue, hc]

/-- What does not use the second component does not depend on it. -/
theorem bind_congr_fst {α β γ : Type} {x x' : Except Fault (α × β)}
    (h : x.map Prod.fst = x'.map Prod.fst) {g : α × β → Except Fault γ}
    (hg : ∀ a b b', g (a, b) = g (a, b')) : x >>= g = x' >>= g := by
  cases x with
  | error e => cases x' <;> simp_all
  | ok p =>
    cases x' with
    | error e => simp at h
    | ok p' =>
      obtain ⟨a, b⟩ := p
      obtain ⟨a', b'⟩ := p'
      obtain rfl : a = a' := by simpa using h
      exact hg a b b'

theorem onClose_eq (h : y.Alike env env') (t : Token) :
    (Run.onClose env y t).map Prod.fst = (Run.onClose env' y t).map Prod.fst := by
  simp only [Run.onClose]
  split
  · rfl
  · rename_i f fs hf
    have hvalue := closeValue_eq (h.calls f (by rw [hf]; exact List.mem_cons_self)) t
    split
    · rfl
    · split
      · simp only [map_bind]
        exact bind_congr_fst (hvalue none) fun _ _ _ => rfl
      · split
        · rfl
        · simp only [h.reduce_eq, map_bind]
          refine bind_congr fun w _ => bind_congr ?_
          rintro ⟨v, w'⟩ -
          exact bind_congr_fst (hvalue (some v)) fun _ _ _ => rfl

end Alike

end Yard

namespace Course

/-- Both environments agree on everything that the course still waits for. -/
structure Alike (env env' : Environment) (c : Course) : Prop where
  yard : c.yard.Alike env env'
  awaiting : ∀ call, c.awaiting = some call → ∀ vs, env.call call.name vs = env'.call call.name vs

variable {env env' : Environment} {y z : Yard} {c d : Course} {t : Token} {ts : List Token}

theorem alike_start : start.Alike env env' :=
  ⟨⟨by simp [start, Yard.empty], by simp [start, Yard.empty]⟩, by rintro _ ⟨⟩⟩

theorem alike_on (h : y.Alike env env') : (on y).Alike env env' := ⟨h, by rintro _ ⟨⟩⟩

theorem alike_openFrame {collected : Collected} (h : y.Alike env env')
    (hc : ∀ name args, collected = .call name args →
      ∀ vs, env.call name vs = env'.call name vs) (s : Span) :
    Yard.Alike env env' { y.openFrame collected s with expectsOperand := true } := by
  refine ⟨?_, ?_⟩
  · intro op s ho
    exact h.rules op s (by simpa [Yard.openFrame] using ho)
  · intro f hf
    rcases List.mem_cons.mp hf with rfl | hf
    · exact hc
    · exact h.calls f hf

theorem alike_pushOperator {k : Kind} {s : Span} {ops : List Stacked} {vs : List Value} {b : Bool}
    (h : y.Alike env env') (hk : SameRule env env' k)
    (ho : ∀ op s, Stacked.operator op s ∈ ops → Stacked.operator op s ∈ y.operators) :
    Yard.Alike env env' ⟨.operator k s :: ops, vs, y.frames, b⟩ := by
  refine ⟨?_, h.calls⟩
  intro op s' hop
  rcases List.mem_cons.mp hop with heq | hop
  · cases heq
    exact hk
  · exact h.rules op s' (ho op s' hop)

theorem operators_reduce {w : Yard} (hw : y.reduce env = .ok w) (op : Kind) (s : Span)
    (ho : Stacked.operator op s ∈ w.operators) : Stacked.operator op s ∈ y.operators := by
  obtain ⟨seg, _, hs, -⟩ := Yard.reduce_eq_ok hw
  rw [hs]
  exact List.mem_append_right seg ho

theorem alike_separated {k : Kind} (h : y.Alike env env') (hz : Run.Separated env y k z) :
    z.Alike env env' := by
  obtain ⟨-, w, f, fs, v, vs, collected, hw, hf, -, -, hc, rfl⟩ := hz
  refine ⟨fun op s ho => h.rules op s (operators_reduce hw op s ho), ?_⟩
  intro g hg
  have hmem : ∀ g ∈ f :: fs, g ∈ y.frames := by simp [hf]
  rcases List.mem_cons.mp hg with rfl | hg
  · rintro name args rfl
    cases hcall : f.collected with
    | call name' args' =>
      have hsame := h.calls f (hmem f List.mem_cons_self) name' args' hcall
      rw [hcall] at hc
      cases hc
      exact hsame
    | _ =>
      rw [hcall] at hc
      cases hc
  · exact h.calls g (hmem g (List.mem_cons_of_mem f hg))

theorem alike_closed {time : Nat} (h : y.Alike env env')
    (hz : Run.onClose env y t = .ok (z, time)) : z.Alike env env' := by
  have hclose : ∀ (w : Yard) (v : Value), w.Alike env env' →
      (Run.operand v w.closeFrame.2).Alike env env' := by
    intro w v hw
    refine ⟨fun op s ho => hw.rules op s ?_, fun f hf => hw.calls f (List.mem_of_mem_tail hf)⟩
    simp only [Run.operand, Yard.pushValue, Yard.closeFrame] at ho
    split at ho
    · rename_i ops hops
      rw [hops]
      exact List.mem_cons_of_mem _ ho
    · exact ho
  obtain ⟨f, fs, -, -, ⟨-, v, -, rfl⟩ | ⟨-, -, w, u, vs, v, hw, -, -, -, rfl⟩⟩ :=
    Run.onClose_eq_ok hz
  · exact hclose y v h
  · refine hclose _ v ⟨fun op s ho => h.rules op s (operators_reduce hw op s ho), fun f hf => ?_⟩
    exact h.calls f (by rwa [← (Yard.frames_reduce hw).1])

/-- A token that both environments agree on keeps them in agreement. -/
theorem Alike.step (hc : c.Alike env env') (h : Agrees env env' ts) (ht : t ∈ ts)
    (hd : c.step env t = .ok d) : d.Alike env env' := by
  have hy := hc.yard
  cases moves_of_step hd with
  | operand => exact alike_on ⟨hy.rules, hy.calls⟩
  | name _ hk =>
    refine ⟨hy, ?_⟩
    rintro call ⟨⟩
    exact h.calls t ht hk
  | called ha _ hz =>
    rw [(onOpen_eq_ok.mp hz).2]
    refine alike_on (alike_openFrame hy ?_ _)
    rintro name args ⟨⟩
    exact hc.awaiting _ ha
  | opened _ _ hcollected hz =>
    rw [(onOpen_eq_ok.mp hz).2]
    refine alike_on (alike_openFrame hy ?_ _)
    rcases hcollected with rfl | rfl <;> rintro name args ⟨⟩
  | separated _ _ hz => exact alike_on (alike_separated hy hz)
  | closed _ _ hz => exact alike_on (alike_closed hy hz)
  | prefixed _ hk =>
    have hrule := h.rules t ht (Kind.isOperator_of_isPrefixOperator hk)
    exact alike_on (alike_pushOperator hy hrule fun _ _ ho => ho)
  | operation _ hk _ hw =>
    have hrule := h.rules t ht (by simp_all [Kind.isInfixOperator])
    obtain ⟨seg, ops, vs, hs, -, -, rfl⟩ := Yard.pushBinary_eq_ok hw
    have hops : ∀ op s, Stacked.operator op s ∈ ops →
        Stacked.operator op s ∈ c.yard.operators := by
      intro op s ho
      rw [hs]
      exact List.mem_append_right seg ho
    have hpush : Yard.Alike env env' ⟨.operator t.kind t.span :: ops, vs, c.yard.frames, true⟩ :=
      alike_pushOperator hy hrule hops
    exact alike_on hpush

/-- In agreement a token does the same, whether it is taken or refused. -/
theorem Alike.step_eq (hc : c.Alike env env') (h : Agrees env env' ts) (ht : t ∈ ts) :
    c.step env t = c.step env' t := by
  have hy := hc.yard
  simp only [Course.step]
  split
  · rfl
  · simp only [process]
    split
    case h_3 hk => rw [h.names t ht hk]
    case h_7 => rw [hy.onComma_eq]
    case h_8 => rw [hy.onArrow_eq]
    case h_9 | h_10 =>
      have hclose := congrArg (Except.map on) (hy.onClose_eq t)
      rwa [map_map, map_map] at hclose
    case h_14 => rw [hy.onInfix_eq]
    all_goals rfl

/-- In agreement a course of tokens is the same, whatever the limits. -/
theorem Alike.metered_eq {limits : Limits} {n : Nat} (hc : c.Alike env env')
    (h : Agrees env env' ts) : c.metered limits env n ts = c.metered limits env' n ts := by
  induction ts generalizing n c with
  | nil => rfl
  | cons t ts ih =>
    have ht : t ∈ t :: ts := List.mem_cons_self
    cases hl : c.limit? limits n t with
    | some e => rw [metered_some hl, metered_some hl]
    | none =>
      rw [metered_none hl, metered_none hl, ← hc.step_eq h ht]
      exact bind_congr fun d hd => ih (hc.step h ht hd) h.tail

theorem Alike.metered (hc : c.Alike env env') (h : Agrees env env' ts) {limits : Limits} {n : Nat}
    (hd : c.metered limits env n ts = .ok d) : d.Alike env env' := by
  induction ts generalizing n c with
  | nil =>
    cases hd
    exact hc
  | cons t ts ih =>
    have ht : t ∈ t :: ts := List.mem_cons_self
    cases hl : c.limit? limits n t with
    | some e =>
      rw [metered_some hl] at hd
      cases hd
    | none =>
      rw [metered_none hl] at hd
      obtain ⟨q, hq, hd⟩ := bind_eq_ok.mp hd
      exact ih (hc.step h ht hq) h.tail hd

theorem Alike.finish_eq (hc : c.Alike env env') (last : Token) :
    c.finish env last = c.finish env' last := by
  simp only [Course.finish, Run.finish, hc.yard.reduce_eq]

end Course

theorem evaluateTokens_congr {env env' : Environment} {ts : List Token}
    (hl : env.limits = env'.limits) (ht : InTime env ts) (ht' : InTime env' ts)
    (h : Agrees env env' ts) : evaluateTokens env ts = evaluateTokens env' ts := by
  by_cases hts : ts = []
  · subst hts
    rfl
  · have hstart : Course.start.Alike env env' := Course.alike_start
    rw [evaluateTokens_metered hts ht, evaluateTokens_metered hts ht', ← hl, ← hstart.metered_eq h]
    exact bind_congr fun c hc => (hstart.metered h hc).finish_eq _

/-- The handler does what the language does without it. -/
structure Handler.Builtin (op : Kind) (h : Handler) : Prop where
  unary : op.isPrefixOperator = true → ∀ v, h v .null = Operation.applyPrefix op v
  binary : op.isPrefixOperator = false → ∀ u v, h u v = Operation.applyInfix op u v

namespace Environment

variable {env env' : Environment} {op : Kind}

theorem get?_of_hasOperator (h : env.hasOperator op = false) : env.operators.get? op = none := by
  simpa [hasOperator] using h

theorem sameRule_of_not_hasOperator (h : env.hasOperator op = false)
    (h' : env'.hasOperator op = false) : SameRule env env' op := by
  refine ⟨fun _ v => ?_, fun _ u v => ?_⟩
  · simp only [prefixRule, get?_of_hasOperator h, get?_of_hasOperator h']
  · simp only [infixRule, get?_of_hasOperator h, get?_of_hasOperator h']

theorem sameRule_of_get?_eq (h : env.operators.get? op = env'.operators.get? op) :
    SameRule env env' op :=
  ⟨fun _ v => by simp only [prefixRule, h], fun _ u v => by simp only [infixRule, h]⟩

/-- Whether unknown names are faults makes no difference where all names are bound. -/
theorem agrees_setStrict {ts : List Token} (strict : Bool)
    (h : ∀ t ∈ ts, t.kind = .identifier → (env.constant? t.name).isSome = true) :
    Agrees env (env.setStrict strict) ts := by
  refine ⟨?_, fun _ _ _ _ => rfl, fun _ _ _ => sameRule_of_get?_eq rfl⟩
  intro t ht hk
  obtain ⟨v, hv⟩ := Option.isSome_iff_exists.mp (h t ht hk)
  have hv' : env.constants.get? t.name = some v := hv
  simp only [resolve, setStrict, hv']

/-- A handler that does what the language does makes no difference. -/
theorem agrees_defineOperator {handler : Handler} (hop : env.hasOperator op = false)
    (h : env.defineOperator op handler = .ok env') (hb : handler.Builtin op) (ts : List Token) :
    Agrees env env' ts := by
  unfold defineOperator at h
  split at h <;> cases h
  refine ⟨fun _ _ _ => rfl, fun _ _ _ _ => rfl, fun t _ _ => ?_⟩
  by_cases hk : t.kind = op
  · have hnew := env.operators.get?_insert_self op handler
    rw [hk]
    refine ⟨fun hp v => ?_, fun hp u v => ?_⟩
    · simp only [prefixRule, get?_of_hasOperator hop, hnew, hb.unary hp]
    · simp only [infixRule, get?_of_hasOperator hop, hnew, hb.binary hp]
  · exact sameRule_of_get?_eq (env.operators.get?_insert_of_ne handler hk).symm

end Environment

/-- In two environments with the same limits, where time does not run out, tokens have the same
value or the same fault if the environments agree on what the tokens mention. So it is for tokens
that mention nothing, for strict and lenient environments that bind every name, and for a handler
that stands in for an operator and does the same. -/
theorem evaluateTokens_agree {env env' : Environment} {ts : List Token}
    (hl : env.limits = env'.limits) (ht : InTime env ts) (ht' : InTime env' ts) :
    (Agrees env env' ts → evaluateTokens env ts = evaluateTokens env' ts) ∧
    ((∀ t ∈ ts, t.kind ≠ .identifier ∧ t.kind ≠ .functionCall ∧
        (t.kind.isOperator = true →
          env.hasOperator t.kind = false ∧ env'.hasOperator t.kind = false)) →
      evaluateTokens env ts = evaluateTokens env' ts) ∧
    (∀ strict, env' = env.setStrict strict →
      (∀ t ∈ ts, t.kind = .identifier → (env.constant? t.name).isSome = true) →
      evaluateTokens env ts = evaluateTokens env' ts) ∧
    ∀ op handler, env.hasOperator op = false → env.defineOperator op handler = .ok env' →
      Handler.Builtin op handler → evaluateTokens env ts = evaluateTokens env' ts := by
  refine ⟨evaluateTokens_congr hl ht ht', ?_, ?_, ?_⟩
  · intro h
    refine evaluateTokens_congr hl ht ht' ⟨?_, ?_, ?_⟩
    · exact fun t htok hk => absurd hk (h t htok).1
    · exact fun t htok hk => absurd hk (h t htok).2.1
    · intro t htok hk
      obtain ⟨hop, hop'⟩ := (h t htok).2.2 hk
      exact Environment.sameRule_of_not_hasOperator hop hop'
  · rintro strict rfl h
    exact evaluateTokens_congr hl ht ht' (Environment.agrees_setStrict strict h)
  · intro op handler hop h hb
    exact evaluateTokens_congr hl ht ht' (Environment.agrees_defineOperator hop h hb ts)

/-- An environment that knows one name. -/
def oneName : Environment := Environment.empty.defineConstant "x" (.bool true)

/-- The negation of that name. -/
def notName : List Token := [.bare .not default, ⟨.identifier, .name "x", default⟩]

theorem evaluateTokens_agree_strict :
    InTime oneName notName ∧ InTime (oneName.setStrict true) notName ∧
      Agrees oneName (oneName.setStrict true) notName ∧
      evaluateTokens oneName notName = evaluateTokens (oneName.setStrict true) notName ∧
      evaluateTokens oneName notName = .ok (.bool false) := by
  have ht : InTime oneName notName := inTime_of_callDuration (fun _ => rfl) _
  have ht' : InTime (oneName.setStrict true) notName := inTime_of_callDuration (fun _ => rfl) _
  have hbound : ∀ t ∈ notName, t.kind = .identifier →
      (oneName.constant? t.name).isSome = true := by
    simp [notName, Token.bare, Token.name, oneName, Environment.defineConstant,
      Environment.constant?, Bindings.get?_insert_self]
  have hl : oneName.limits = (oneName.setStrict true).limits := rfl
  have h := evaluateTokens_agree hl ht ht'
  exact ⟨ht, ht', Environment.agrees_setStrict true hbound, h.2.2.1 true rfl hbound, by rfl⟩

end Formula
