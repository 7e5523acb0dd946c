import Formula.Proofs.Recognition

/-! What the agreement of the stacks means for an evaluation: no operator ever lacks an operand,
no bracket ever holds more or less than one value, and one value is left at the end. -/
namespace Formula
open Run

variable {env : Environment} {ts : List Token}

/-- No evaluation finds its values out of balance, unless the host says so by itself. -/
theorem not_reportsSyntax_unbalanced (h : ¬ env.Reports .unbalancedExpression) :
    ¬ ReportsSyntax env ts .unbalancedExpression := by
  intro hr
  by_cases hi : ∃ e, Interrupted env ts e
  · obtain ⟨e, he⟩ := hi
    obtain ⟨d, hd, hk⟩ := hr
    cases hd.symm.trans (evaluateTokens_of_interrupted he)
    exact h (he.reports hk)
  · cases verdict (not_exists.mp hi) with
    | value hv _ => exact hr.not_ok hv
    | token _ _ _ he => rcases ReportsSyntax.at he with h | h <;> cases hr.unique h
    | finish _ _ _ he => rcases he with h | h <;> cases hr.unique h
    | empty hts =>
      subst hts
      cases hr.unique (.empty env)

/-- Behind a whole expression no call waits and no bracket is open. -/
theorem Run.of_outline_eq_accepting {r : Run} (h : r.outline = .accepting) :
    r.awaiting = none ∧ r.yard.frames = [] ∧ r.yard.expectsOperand = false := by
  cases ha : r.awaiting with
  | some call =>
    rw [outline_of_awaiting ha] at h
    cases congrArg Outline.expected h
  | none =>
    rw [outline_of_none ha] at h
    have hb : r.yard.brackets = [] := congrArg Outline.brackets h
    have he : r.yard.expected = .operator := congrArg Outline.expected h
    exact ⟨rfl, List.map_eq_nil_iff.mp hb, Yard.expected_eq_operator.mp he⟩

/-- A value is all that an evaluation leaves on its stacks. -/
theorem stacks_of_evaluateTokens {v : Value} (h : evaluateTokens env ts = .ok v) :
    ∃ r z, start.steps env ts = .ok r ∧ r.yard.reduce env = .ok z ∧
      z.operators = [] ∧ z.values = [v] ∧ z.frames = [] := by
  have hts : ts ≠ [] := by
    rintro rfl
    cases h
  rw [evaluateTokens_of_ne_nil env hts] at h
  obtain ⟨r, hr, h⟩ := bind_eq_ok.mp h
  obtain ⟨ho, z, hz, hv⟩ := finish_eq_ok h
  obtain ⟨-, hf, hy⟩ := of_outline_eq_accepting ho
  have hsteady := (steady_start env.limits).steps hr
  have hops := (hsteady.one_value hf hy hz).1
  exact ⟨r, z, hr, hz, hops, hv, (Yard.frames_reduce hz).1.trans hf⟩

/-- Behind every token that a run takes, its stacks agree and its brackets are not too many; the
operators that may be applied there have their operands, the innermost bracket then holds a single
value, and closing it removes its own marker. So no evaluation is out of balance, unless the host
says so, and a successful one leaves its value and nothing else. -/
theorem stacks_balanced (env : Environment) (ts : List Token) :
    (∀ as bs r, ts = as ++ bs → start.steps env as = .ok r →
      r.yard.Disciplined ∧ r.yard.frames.length ≤ env.limits.depth ∧
      (r.yard.expectsOperand = false → r.yard.Fed env ∧ r.yard.Single env) ∧
      ∀ t z time, onClose env r.yard t = .ok (z, time) → r.yard.Closes z) ∧
    (¬ env.Reports .unbalancedExpression → ¬ ReportsSyntax env ts .unbalancedExpression) ∧
    ∀ v, evaluateTokens env ts = .ok v →
      ∃ r z, start.steps env ts = .ok r ∧ r.yard.reduce env = .ok z ∧
        z.operators = [] ∧ z.values = [v] ∧ z.frames = [] := by
  refine ⟨?_, not_reportsSyntax_unbalanced, fun v => stacks_of_evaluateTokens⟩
  intro as bs r _ hr
  have h := (steady_start env.limits).steps hr
  refine ⟨h.disciplined, h.depth, ?_, ?_⟩
  · intro hy
    exact ⟨h.disciplined.fed hy, h.disciplined.single_taken hy⟩
  · intro t z time hz
    exact (h.disciplined.onClose hz).2

/-- A value behind a parenthesis that is still open. -/
def halfOpen : List Token := [.bare .parenOpen default, .bare .literal default]

theorem stacks_balanced_halfOpen :
    start.steps .empty halfOpen =
      .ok ⟨⟨[.marker], [.null], [⟨.group, 0, default⟩], false⟩, none, 2, 0⟩ ∧
    Yard.Disciplined ⟨[.marker], [.null], [⟨.group, 0, default⟩], false⟩ ∧
    Yard.Fed .empty ⟨[.marker], [.null], [⟨.group, 0, default⟩], false⟩ ∧
    Yard.Closes ⟨[.marker], [.null], [⟨.group, 0, default⟩], false⟩ ⟨[], [.null], [], false⟩ ∧
    ¬ ReportsSyntax .empty halfOpen .unbalancedExpression ∧
    ∃ r z, start.steps .empty (halfOpen ++ [.bare .parenClose default]) = .ok r ∧
      r.yard.reduce .empty = .ok z ∧ z.operators = [] ∧ z.values = [.null] ∧ z.frames = [] := by
  have h := stacks_balanced .empty halfOpen
  have hc := stacks_balanced .empty (halfOpen ++ [.bare .parenClose default])
  have hr : start.steps .empty halfOpen =
      .ok ⟨⟨[.marker], [.null], [⟨.group, 0, default⟩], false⟩, none, 2, 0⟩ := rfl
  obtain ⟨hd, -, hf, hz⟩ := h.1 halfOpen [] _ (List.append_nil _).symm hr
  have hclose := hz (.bare .parenClose default) ⟨[], [.null], [], false⟩ 0 rfl
  exact ⟨hr, hd, (hf rfl).1, hclose, h.2.1 (Environment.not_reports_empty _), hc.2.2 .null rfl⟩

end Formula
