import Formula.Proofs.Metering

/-! The budget of steps. Tokens that begin alike and go on behind the last one that the budget allows
have the same fault, whatever follows. Main statement: this is so exactly if the last token is not
the name of a call, since the parenthesis of a call is looked at within the step of its name. -/
namespace Formula

namespace Run

variable {env : Environment} {r r' : Run} {t call : Token} {as bs ts : List Token} {e : Fault}

theorem consumed_of_steps (h : r.steps env ts = .ok r') :
    r'.consumed = r.consumed + ts.length := by
  induction ts generalizing r with
  | nil =>
    cases h
    rfl
  | cons t ts ih =>
    rw [steps_cons] at h
    obtain ⟨q, hq, h⟩ := bind_eq_ok.mp h
    rw [ih h, consumed_of_step hq, List.length_cons, Nat.add_assoc, Nat.add_comm 1]

/-- Behind the name of a call, and there only, its parenthesis is awaited. -/
theorem awaiting_of_step (h : r.step env t = .ok r') :
    r'.awaiting = if t.kind = .functionCall then some t else none := by
  have hcourse := step_course (r := r) (t := t) fun e hlimited => by
    rw [hlimited.step] at h
    cases h
  rw [h, map_ok] at hcourse
  exact (Course.moves_of_step hcourse.symm).awaiting

theorem awaiting_of_steps (h : start.steps env ts = .ok r) :
    r.awaiting = ts.getLast?.filter (·.kind = .functionCall) := by
  obtain rfl | ⟨as, t, rfl⟩ := ts.eq_nil_or_concat
  · cases h
    rfl
  · rw [List.concat_eq_append] at h ⊢
    rw [steps_append] at h
    obtain ⟨q, -, h⟩ := bind_eq_ok.mp h
    obtain ⟨q', ht, h⟩ := bind_eq_ok.mp (steps_cons ▸ h)
    cases h
    simp only [awaiting_of_step ht, List.getLast?_append, List.getLast?_singleton, Option.some_or,
      Option.filter_some, decide_eq_true_eq]

/-- A run that has spent its budget takes no more tokens, unless a call waits. -/
theorem step_of_spent (ha : r.awaiting = none) (hn : env.limits.steps ≤ r.consumed) (t : Token) :
    r.step env t = .error (.tooManySteps env.limits.steps (r.consumed + 1)) :=
  Limited.step (.budget ha (if_pos (Nat.lt_succ_of_le hn)))

/-- A call that waits takes its parenthesis, whatever the budget, if there may be one more bracket. -/
theorem step_parenthesis (hr : r.Steady env.limits) (ha : r.awaiting = some call)
    (ht : t.kind = .parenOpen) (hd : r.yard.frames.length + 1 ≤ env.limits.depth) :
    ∃ q f fs, r.step env t = .ok q ∧ q.awaiting = none ∧ q.yard.frames = f :: fs ∧
      f.opened = call.span := by
  have hdepth : checkDepth env.limits r.yard call = .ok () := if_neg (Nat.not_lt.mpr hd)
  have hoperand := requireOperand_ok (t := call) (hr.awaiting call ha)
  simp only [step, ha, openCall, ht, if_pos, onOpen, hoperand, hdepth, ok_bind]
  exact ⟨_, _, _, rfl, rfl, rfl, rfl⟩

theorem step_parenthesis_of_lt (hr : r.Steady env.limits) (ha : r.awaiting = some call)
    (ht : t.kind = .parenOpen) (hd : env.limits.depth < r.yard.frames.length + 1) :
    r.step env t =
      .error (.tooDeep env.limits.depth (r.yard.frames.length + 1) call.span) :=
  Limited.step (.call ha ht (hr.awaiting call ha) (if_pos hd))

/-- The fault of a run that has spent its budget when `t` and `bs` follow. The parenthesis of a call
that waits belongs to the step of its name: it is looked at, and may open its bracket, before the
budget is. -/
def overrun (limits : Limits) (r : Run) (t : Token) (bs : List Token) : Fault :=
  match r.awaiting with
  | none => .tooManySteps limits.steps (limits.steps + 1)
  | some call =>
    if t.kind ≠ .parenOpen then .unexpected t
    else if limits.depth < r.yard.frames.length + 1 then
      .tooDeep limits.depth (r.yard.frames.length + 1) call.span
    else if bs.isEmpty then .unclosed call.span
    else .tooManySteps limits.steps (limits.steps + 2)

end Run

section

variable {env : Environment} {r : Run} {t : Token} {as bs : List Token} {e : Fault}

/-- What fails fails whatever follows. -/
theorem evaluateTokens_append (h : Run.start.steps env as = .error e) (bs : List Token) :
    evaluateTokens env (as ++ bs) = .error e := by
  have hne : as ++ bs ≠ [] := by
    intro hnil
    rw [(List.append_eq_nil_iff.mp hnil).1] at h
    cases h
  rw [evaluateTokens_of_ne_nil env hne, Run.steps_append, h]
  rfl

theorem evaluateTokens_append_cons (hr : Run.start.steps env as = .ok r)
    (ht : r.step env t = .error e) (bs : List Token) :
    evaluateTokens env (as ++ t :: bs) = .error e := by
  have hsteps : Run.start.steps env (as ++ [t]) = .error e := by
    rw [Run.steps_append, hr, ok_bind, Run.steps_cons, ht, error_bind]
  rw [List.append_cons]
  exact evaluateTokens_append hsteps bs

/-- What the tokens behind a spent budget come to. -/
theorem evaluateTokens_overrun (has : as.length = env.limits.steps)
    (hr : Run.start.steps env as = .ok r) (t : Token) (bs : List Token) :
    evaluateTokens env (as ++ t :: bs) = .error (r.overrun env.limits t bs) := by
  have hconsumed : r.consumed = env.limits.steps := by
    rw [Run.consumed_of_steps hr, has]
    exact Nat.zero_add _
  cases ha : r.awaiting with
  | none =>
    have ht := Run.step_of_spent ha (Nat.le_of_eq hconsumed.symm) t
    rw [hconsumed] at ht
    simpa only [Run.overrun, ha] using evaluateTokens_append_cons hr ht bs
  | some call =>
    have hsteady := (Run.steady_start env.limits).steps hr
    simp only [Run.overrun, ha]
    by_cases hk : t.kind = .parenOpen
    · rw [if_neg (not_not.mpr hk)]
      by_cases hd : env.limits.depth < r.yard.frames.length + 1
      · rw [if_pos hd]
        exact evaluateTokens_append_cons hr (Run.step_parenthesis_of_lt hsteady ha hk hd) bs
      · rw [if_neg hd]
        obtain ⟨q, f, fs, ht, hq, hf, hopened⟩ :=
          Run.step_parenthesis hsteady ha hk (Nat.not_lt.mp hd)
        have hsteps : Run.start.steps env (as ++ [t]) = .ok q := by
          rw [Run.steps_append, hr, ok_bind, Run.steps_cons, ht]
          rfl
        cases bs with
        | nil =>
          rw [evaluateTokens_of_ne_nil env (by simp), hsteps]
          simp [Run.finish, hq, hf, hopened]
        | cons u bs =>
          -- The bracket is open, and the next token finds the budget overspent.
          have hmore : q.consumed = env.limits.steps + 1 := by
            rw [Run.consumed_of_step ht, hconsumed]
          have hu := Run.step_of_spent hq (by rw [hmore]; exact Nat.le_succ _) u
          rw [hmore] at hu
          rw [List.append_cons]
          exact evaluateTokens_append_cons hsteps hu bs
    · rw [if_pos hk]
      refine evaluateTokens_append_cons hr ?_ bs
      simp [Run.step, ha, Run.openCall, hk]

end

/-- The name of a call comes last, and a run takes all of the tokens. -/
def EndsWithCall (env : Environment) (as : List Token) : Prop :=
  ∃ call r, as.getLast? = some call ∧ call.kind = .functionCall ∧ Run.start.steps env as = .ok r

variable {env : Environment} {as : List Token} {r : Run}

theorem awaiting_eq_none (h : ¬ EndsWithCall env as) (hr : Run.start.steps env as = .ok r) :
    r.awaiting = none := by
  rw [Run.awaiting_of_steps hr, Option.filter_eq_none_iff]
  intro call hcall hk
  exact h ⟨call, r, hcall, by simpa using hk, hr⟩

/-- Unless the name of a call comes last, no token behind the budget is looked at. -/
theorem exists_fault_of_spent (has : as.length = env.limits.steps) (h : ¬ EndsWithCall env as) :
    ∃ e, (∀ t bs, evaluateTokens env (as ++ t :: bs) = .error e) ∧
      (Run.start.steps env as = .error e ∨ (∃ r, Run.start.steps env as = .ok r) ∧
        e = .tooManySteps env.limits.steps (env.limits.steps + 1)) := by
  cases hr : Run.start.steps env as with
  | error e => exact ⟨e, fun t bs => evaluateTokens_append hr (t :: bs), .inl rfl⟩
  | ok r =>
    refine ⟨_, fun t bs => ?_, .inr ⟨⟨r, rfl⟩, rfl⟩⟩
    have hfault := evaluateTokens_overrun has hr t bs
    simpa only [Run.overrun, awaiting_eq_none h hr] using hfault

/-- Behind the name of a call, a token that is no parenthesis is reported. -/
theorem not_exists_fault_of_call (has : as.length = env.limits.steps) (h : EndsWithCall env as) :
    ¬ ∃ e, ∀ t bs, evaluateTokens env (as ++ t :: bs) = .error e := by
  obtain ⟨call, r, hlast, hk, hr⟩ := h
  have ha : r.awaiting = some call := by
    rw [Run.awaiting_of_steps hr, hlast]
    simp [hk]
  rintro ⟨e, he⟩
  have hfault (s : Span) : e = .unexpected (.bare .comma s) := by
    have hs := (he (.bare .comma s) []).symm.trans (evaluateTokens_overrun has hr _ _)
    simpa only [Run.overrun, ha, Token.bare, ne_eq, reduceCtorEq, not_false_eq_true, if_pos,
      Except.error.injEq] using hs
  have hspan := congrArg Fault.span? ((hfault (.point 0 0 0)).symm.trans (hfault (.point 1 0 0)))
  exact absurd hspan (by decide)

theorem split_of_lt {n : Nat} {ts : List Token} (h : n < ts.length) :
    ∃ t bs, ts = ts.take n ++ t :: bs :=
  ⟨ts[n], ts.drop (n + 1), by rw [List.getElem_cons_drop, List.take_append_drop]⟩

/-- The budget of steps counts the tokens, but for the parenthesis of a call, which belongs to the
step of its name. Tokens that are more than the budget allows, and are the same as far as it goes,
have the same fault, that of those tokens or, if a run takes all of them, that of the budget, which
tells one token more than it allows. This is so exactly if the tokens that the budget allows do not
end with the name of a call. If they do, what follows is looked at: it has to be a parenthesis, may
be a bracket too many or one that is never closed, and only the token behind it is one too many. -/
theorem evaluateTokens_budget (env : Environment) :
    (∀ ts ts', env.limits.steps < ts.length → env.limits.steps < ts'.length →
      ts.take env.limits.steps = ts'.take env.limits.steps →
      ¬ EndsWithCall env (ts.take env.limits.steps) →
      ∃ e, evaluateTokens env ts = .error e ∧ evaluateTokens env ts' = .error e ∧
        (Run.start.steps env (ts.take env.limits.steps) = .error e ∨
          (∃ r, Run.start.steps env (ts.take env.limits.steps) = .ok r) ∧
            e = .tooManySteps env.limits.steps (env.limits.steps + 1))) ∧
      ∀ as, as.length = env.limits.steps →
        ((∃ e, ∀ t bs, evaluateTokens env (as ++ t :: bs) = .error e) ↔ ¬ EndsWithCall env as) ∧
          ∀ r, Run.start.steps env as = .ok r → ∀ t bs,
            evaluateTokens env (as ++ t :: bs) = .error (r.overrun env.limits t bs) := by
  refine ⟨fun ts ts' h h' hshare hcall => ?_, fun as has => ⟨⟨?_, ?_⟩, fun r hr => ?_⟩⟩
  · have hlength : (ts.take env.limits.steps).length = env.limits.steps := by
      rw [List.length_take, Nat.min_eq_left (Nat.le_of_lt h)]
    obtain ⟨t, bs, hts⟩ := split_of_lt h
    obtain ⟨t', bs', hts'⟩ := split_of_lt h'
    obtain ⟨e, he, hcause⟩ := exists_fault_of_spent hlength hcall
    refine ⟨e, ?_, ?_, hcause⟩
    · rw [hts]
      exact he t bs
    · rw [hts', ← hshare]
      exact he t' bs'
  · exact fun h hcall => not_exists_fault_of_call has hcall h
  · exact fun hcall => (exists_fault_of_spent has hcall).imp fun e he => he.1
  · exact evaluateTokens_overrun has hr

/-- An environment that allows one token. -/
def oneToken : Environment := Environment.empty.setLimits ⟨64, 8, 1, 1000⟩

/-- The literal for null. -/
def nullToken : Token := .bare .literal default

/-- The name of a call. -/
def callToken : Token := ⟨.functionCall, .name "f", default⟩

/-- Nothing behind the null is looked at, neither the comma that has no place there nor the operand
that is missing; behind the name of a call, what follows is. -/
theorem evaluateTokens_budget_null :
    (1 < [nullToken, .bare .comma default].length ∧
      1 < [nullToken, .bare .plus default, .bare .times default].length ∧
      ¬ EndsWithCall oneToken [nullToken]) ∧
    (∃ e, evaluateTokens oneToken [nullToken, .bare .comma default] = .error e ∧
      evaluateTokens oneToken [nullToken, .bare .plus default, .bare .times default] = .error e ∧
      e = .tooManySteps 1 2) ∧
    EndsWithCall oneToken [callToken] ∧
    (¬ ∃ e, ∀ t bs, evaluateTokens oneToken ([callToken] ++ t :: bs) = .error e) ∧
    ∃ r, Run.start.steps oneToken [callToken] = .ok r ∧
      ∀ t bs, evaluateTokens oneToken ([callToken] ++ t :: bs) =
        .error (r.overrun oneToken.limits t bs) := by
  have hlast : ¬ EndsWithCall oneToken [nullToken] := by
    rintro ⟨call, r, hcall, hk, -⟩
    cases hcall
    exact absurd hk (by decide)
  have hcall : EndsWithCall oneToken [callToken] := ⟨_, _, rfl, rfl, rfl⟩
  obtain ⟨hshared, hspent⟩ := evaluateTokens_budget oneToken
  obtain ⟨e, he, he', hfault | ⟨-, hbudget⟩⟩ := hshared [nullToken, .bare .comma default]
    [nullToken, .bare .plus default, .bare .times default] (by decide) (by decide) rfl hlast
  · cases hfault
  · obtain ⟨hiff, hoverrun⟩ := hspent [callToken] rfl
    exact ⟨⟨by decide, by decide, hlast⟩, ⟨e, he, he', hbudget⟩, hcall,
      fun h => hiff.mp h hcall, _, rfl, hoverrun _ rfl⟩

/-- Behind the name of a call there are two faults for one budget, and neither of them tells one
token more than it allows: that of the bracket that is not closed, and that of the third token. -/
theorem evaluateTokens_oneToken_call :
    oneToken.limits.steps = 1 ∧
      evaluateTokens oneToken [callToken, .bare .parenOpen default] = .error (.unclosed default) ∧
      evaluateTokens oneToken [callToken, .bare .parenOpen default, .bare .parenClose default] =
        .error (.tooManySteps 1 3) :=
  ⟨rfl, rfl, rfl⟩

end Formula
