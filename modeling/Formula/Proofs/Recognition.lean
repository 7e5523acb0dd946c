import Formula.Proofs.Provenance
import Formula.Proofs.Simulation

/-! Evaluation recognizes the grammar. Main statement: without an interruption, every fault is one
of structure, at the first token behind which nothing can complete an expression, or at the end. -/
namespace Formula
open Run

variable {env : Environment} {ts : List Token}

/-- The evaluation reports a fault of structure of this kind. -/
def ReportsSyntax (env : Environment) (ts : List Token) (k : SyntaxFault) : Prop :=
  ∃ e, evaluateTokens env ts = .error e ∧ e.syntaxKind? = some k

/-- How an evaluation that nothing interrupts can end. -/
inductive Verdict (env : Environment) (ts : List Token) : Prop
  | value {v} (h : evaluateTokens env ts = .ok v) (hs : Sentence ts)
  | token {as t bs f} (hts : ts = as ++ t :: bs) (ha : Extendable as)
      (ht : ¬ Extendable (as ++ [t])) (h : evaluateTokens env ts = .error (SyntaxFault.at f t))
  | finish (hts : ts ≠ []) (hx : Extendable ts) (hs : ¬ Sentence ts)
      (h : ReportsSyntax env ts .unclosedBracket ∨ ReportsSyntax env ts .unexpectedEnd)
  | empty (hts : ts = [])

theorem verdict (hi : ∀ e, ¬ Interrupted env ts e) : Verdict env ts := by
  by_cases hts : ts = []
  · exact .empty hts
  have hstart := steady_start env.limits
  have hev := evaluateTokens_of_ne_nil env hts
  cases hs : start.steps env ts with
  | error e =>
    rw [hs, error_bind] at hev
    obtain ⟨as, t, bs, q, hts, hq, hsteady, hstep⟩ := steps_eq_error hstart hs
    have ho := steps_outline hq
    rcases step_eq_error hsteady hstep with h | ⟨f, hf, rfl⟩
    · exact absurd (.token hts hq h) (hi e)
    · exact .token hts (Outline.extendable_iff.mpr ⟨_, ho⟩) (Outline.not_extendable ho hf) hev
  | ok r =>
    rw [hs, ok_bind] at hev
    have ho := steps_outline hs
    cases hfin : r.finish env (ts.getLast hts) with
    | ok v =>
      rw [(finish_eq_ok hfin).1] at ho
      exact .value (hev.trans hfin) (Outline.sentence_iff.mpr ho)
    | error e =>
      rcases finish_eq_error (hstart.steps hs) hfin with ⟨ha, hf, hy, d, hd, rfl⟩ | ⟨hn, hk⟩
      · have hop := (hstart.steps hs).disciplined.operatorFault_of_reduce hy hd
        exact absurd (.finish hts hs ha hf hy hd hop) (hi _)
      · refine .finish hts (Outline.extendable_iff.mpr ⟨_, ho⟩) ?_ ?_
        · intro hsent
          rw [Outline.sentence_iff] at hsent
          exact hn (Except.ok.inj (ho.symm.trans hsent))
        · exact hk.symm.imp (fun h => ⟨e, hev.trans hfin, h⟩) (fun h => ⟨e, hev.trans hfin, h⟩)

theorem SyntaxFault.syntaxKind?_at (f : SyntaxFault) (t : Token) :
    (f.at t).syntaxKind? = some .unexpectedToken ∨ (f.at t).syntaxKind? = some .unmatchedClose := by
  by_cases h : f = .unmatchedClose
  · exact .inr (by rw [SyntaxFault.at, if_pos h]; rfl)
  · exact .inl (by rw [SyntaxFault.at, if_neg h]; rfl)

theorem sentence_of_evaluateTokens {v : Value} (h : evaluateTokens env ts = .ok v) :
    Sentence ts := by
  have hts : ts ≠ [] := by
    rintro rfl
    cases h
  rw [evaluateTokens_of_ne_nil env hts] at h
  obtain ⟨r, hr, h⟩ := bind_eq_ok.mp h
  have ho := steps_outline hr
  rw [(finish_eq_ok h).1] at ho
  exact Outline.sentence_iff.mpr ho

theorem not_sentence_nil : ¬ Sentence [] := by
  rw [Outline.sentence_iff]
  intro h
  cases h

/-- At most one token is the first behind which nothing can complete an expression. -/
theorem first_impossible_unique {as bs as' bs' : List Token} {t t' : Token}
    (h : as ++ t :: bs = as' ++ t' :: bs') (ha : Extendable as) (ht : ¬ Extendable (as ++ [t]))
    (ha' : Extendable as') (ht' : ¬ Extendable (as' ++ [t'])) : t = t' := by
  rcases List.append_eq_append_iff.mp h with ⟨cs, rfl, hc⟩ | ⟨cs, rfl, hc⟩
  · cases cs with
    | nil => exact (List.cons.inj hc).1
    | cons c cs =>
      obtain ⟨rfl, -⟩ := List.cons.inj hc
      exact absurd (Extendable.of_append cs (by simpa using ha')) ht
  · cases cs with
    | nil => exact (List.cons.inj hc).1.symm
    | cons c cs =>
      obtain ⟨rfl, -⟩ := List.cons.inj hc
      exact absurd (Extendable.of_append cs (by simpa using ha)) ht'

theorem ReportsSyntax.unique {j k : SyntaxFault} (hj : ReportsSyntax env ts j)
    (hk : ReportsSyntax env ts k) : j = k := by
  obtain ⟨e, he, hj⟩ := hj
  obtain ⟨d, hd, hk⟩ := hk
  cases he.symm.trans hd
  exact Option.some.inj (hj.symm.trans hk)

theorem ReportsSyntax.not_ok {k : SyntaxFault} {v : Value} (h : ReportsSyntax env ts k)
    (hv : evaluateTokens env ts = .ok v) : False := by
  obtain ⟨e, he, -⟩ := h
  cases he.symm.trans hv

theorem ReportsSyntax.at {t : Token} {f : SyntaxFault}
    (h : evaluateTokens env ts = .error (f.at t)) :
    ReportsSyntax env ts .unexpectedToken ∨ ReportsSyntax env ts .unmatchedClose :=
  (f.syntaxKind?_at t).imp (fun hk => ⟨_, h, hk⟩) (fun hk => ⟨_, h, hk⟩)

theorem ReportsSyntax.empty (env : Environment) : ReportsSyntax env [] .emptyExpression :=
  ⟨_, rfl, rfl⟩

namespace Verdict

theorem sentence_iff (h : Verdict env ts) : Sentence ts ↔ ∃ v, evaluateTokens env ts = .ok v := by
  refine ⟨fun hs => ?_, fun ⟨v, hv⟩ => sentence_of_evaluateTokens hv⟩
  cases h with
  | value h _ => exact ⟨_, h⟩
  | @token as t bs f hts _ ht _ =>
    have hx : Extendable ((as ++ [t]) ++ bs) := by simpa [hts] using hs.extendable
    exact absurd (hx.of_append bs) ht
  | finish _ _ hn _ => exact absurd hs hn
  | empty hts => exact absurd (hts ▸ hs) not_sentence_nil

theorem reports_iff (h : Verdict env ts) : ¬ Sentence ts ↔ ∃ k, ReportsSyntax env ts k := by
  constructor
  · intro hs
    cases h with
    | value _ h => exact absurd h hs
    | token _ _ _ h => exact (ReportsSyntax.at h).elim (fun h => ⟨_, h⟩) (fun h => ⟨_, h⟩)
    | finish _ _ _ h => exact h.elim (fun h => ⟨_, h⟩) (fun h => ⟨_, h⟩)
    | empty hts =>
      subst hts
      exact ⟨_, ReportsSyntax.empty env⟩
  · rintro ⟨k, hk⟩ hs
    obtain ⟨v, hv⟩ := h.sentence_iff.mp hs
    exact hk.not_ok hv

/-- The first impossible token is the one reported. -/
theorem reports_token (h : Verdict env ts) {as bs : List Token} {t : Token}
    (hts : ts = as ++ t :: bs) (ha : Extendable as) (ht : ¬ Extendable (as ++ [t])) :
    evaluateTokens env ts = .error (.unexpected t) ∨
      evaluateTokens env ts = .error (.unmatched t) := by
  have hx : ¬ Extendable ts := by
    intro hx
    exact ht (Extendable.of_append bs (by simpa [hts] using hx))
  cases h with
  | value _ hs => exact absurd hs.extendable hx
  | @token as' t' bs' f hts' ha' ht' h =>
    obtain rfl := first_impossible_unique (hts.symm.trans hts') ha ht ha' ht'
    by_cases hf : f = .unmatchedClose
    · rw [SyntaxFault.at, if_pos hf] at h
      exact .inr h
    · rw [SyntaxFault.at, if_neg hf] at h
      exact .inl h
  | finish _ hx' _ _ => exact absurd hx' hx
  | empty h => simp [h] at hts

theorem token_of_reports (h : Verdict env ts)
    (hr : ReportsSyntax env ts .unexpectedToken ∨ ReportsSyntax env ts .unmatchedClose) :
    ∃ as t bs, ts = as ++ t :: bs ∧ Extendable as ∧ ¬ Extendable (as ++ [t]) := by
  cases h with
  | value h _ => exact (hr.elim (·.not_ok h) (·.not_ok h)).elim
  | token hts ha ht _ => exact ⟨_, _, _, hts, ha, ht⟩
  | finish _ _ _ h =>
    rcases hr with hr | hr <;> rcases h with h | h <;> cases hr.unique h
  | empty hts =>
    have he := ReportsSyntax.empty env
    rw [← hts] at he
    rcases hr with hr | hr <;> cases hr.unique he

theorem reports_end_iff (h : Verdict env ts) :
    ReportsSyntax env ts .unclosedBracket ∨ ReportsSyntax env ts .unexpectedEnd ↔
      ts ≠ [] ∧ Extendable ts ∧ ¬ Sentence ts := by
  constructor
  · intro hr
    cases h with
    | value h _ => exact (hr.elim (·.not_ok h) (·.not_ok h)).elim
    | token _ _ _ h =>
      rcases hr with hr | hr <;> rcases ReportsSyntax.at h with h | h <;> cases hr.unique h
    | finish hts hx hs _ => exact ⟨hts, hx, hs⟩
    | empty hts =>
      have he := ReportsSyntax.empty env
      rw [← hts] at he
      rcases hr with hr | hr <;> cases hr.unique he
  · rintro ⟨hts, hx, hs⟩
    cases h with
    | value _ h => exact absurd h hs
    | @token as t bs f hts' _ ht _ =>
      have hx' : Extendable ((as ++ [t]) ++ bs) := by simpa [hts'] using hx
      exact absurd (hx'.of_append bs) ht
    | finish _ _ _ h => exact h
    | empty h => exact absurd h hts

theorem reports_empty_iff (h : Verdict env ts) :
    ReportsSyntax env ts .emptyExpression ↔ ts = [] := by
  refine ⟨fun hr => ?_, fun hts => hts ▸ .empty env⟩
  cases h with
  | value h _ => exact (hr.not_ok h).elim
  | token _ _ _ h => rcases ReportsSyntax.at h with h | h <;> cases hr.unique h
  | finish _ _ _ h => rcases h with h | h <;> cases hr.unique h
  | empty hts => exact hts

end Verdict

/-- Evaluation accepts expressions only. Unless a limit or a failing evaluation interrupts it, and
then that is what it reports, it gives every expression a value and reports a fault of structure
for everything else: at the first token behind which nothing can complete an expression if there
is one, and else at the end. -/
theorem evaluateTokens_recognizes (env : Environment) (ts : List Token) :
    (∀ v, evaluateTokens env ts = .ok v → Sentence ts) ∧
    (∀ e, Interrupted env ts e → evaluateTokens env ts = .error e) ∧
    ((∀ e, ¬ Interrupted env ts e) →
      (Sentence ts ↔ ∃ v, evaluateTokens env ts = .ok v) ∧
      (¬ Sentence ts ↔ ∃ k, ReportsSyntax env ts k) ∧
      (∀ as t bs, ts = as ++ t :: bs → Extendable as → ¬ Extendable (as ++ [t]) →
        evaluateTokens env ts = .error (.unexpected t) ∨
          evaluateTokens env ts = .error (.unmatched t)) ∧
      (ReportsSyntax env ts .unexpectedToken ∨ ReportsSyntax env ts .unmatchedClose →
        ∃ as t bs, ts = as ++ t :: bs ∧ Extendable as ∧ ¬ Extendable (as ++ [t])) ∧
      (ReportsSyntax env ts .unclosedBracket ∨ ReportsSyntax env ts .unexpectedEnd ↔
        ts ≠ [] ∧ Extendable ts ∧ ¬ Sentence ts) ∧
      (ReportsSyntax env ts .emptyExpression ↔ ts = [])) := by
  refine ⟨fun v hv => sentence_of_evaluateTokens hv,
    fun e he => evaluateTokens_of_interrupted he, fun hi => ?_⟩
  have h := verdict hi
  exact ⟨h.sentence_iff, h.reports_iff, fun _ _ _ => h.reports_token, h.token_of_reports,
    h.reports_end_iff, h.reports_empty_iff⟩

/-- A value with a parenthesis behind it that closes nothing. -/
def strayClose : List Token := [.bare .literal default, .bare .parenClose default]

theorem recognizes_strayClose :
    (∀ e, ¬ Interrupted .empty strayClose e) ∧ ¬ Sentence strayClose ∧
      ReportsSyntax .empty strayClose .unmatchedClose := by
  have hr : ReportsSyntax .empty strayClose .unmatchedClose := ⟨_, rfl, rfl⟩
  have hi : ∀ e, ¬ Interrupted .empty strayClose e := by
    intro e he
    obtain ⟨d, hd, hk⟩ := hr
    cases hd.symm.trans (evaluateTokens_of_interrupted he)
    exact Environment.not_reports_empty _ (he.reports hk)
  have h := (evaluateTokens_recognizes .empty strayClose).2.2 hi
  exact ⟨hi, h.2.1.mpr ⟨_, hr⟩, hr⟩

end Formula
