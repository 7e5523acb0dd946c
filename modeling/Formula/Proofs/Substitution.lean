import Formula.Proofs.Climbing

/-! An expression in parentheses stands for its value: where a name may stand, putting the tokens
of an expression with the same value in its place, in parentheses, changes no result. -/
namespace Formula
open Course

namespace Course

variable {env : Environment} {c d : Course} {t f : Token}

/-- Only the name of a call leaves a call waiting. -/
theorem awaiting_of_step (h : c.step env t = .ok d) (hf : d.awaiting = some f) :
    t.kind = .functionCall := by
  rw [(moves_of_step h).awaiting] at hf
  split at hf
  · assumption
  · cases hf

theorem awaiting_of_steps {ts : List Token} (h : start.steps env ts = .ok d)
    (hf : d.awaiting = some f) : ∃ as t, ts = as ++ [t] ∧ t.kind = .functionCall := by
  rcases List.eq_nil_or_concat ts with rfl | ⟨as, t, rfl⟩
  · cases h
    cases hf
  · rw [List.concat_eq_append] at h ⊢
    rw [steps_append] at h
    obtain ⟨c, -, h⟩ := bind_eq_ok.mp h
    rw [steps_cons] at h
    obtain ⟨q, hq, h⟩ := bind_eq_ok.mp h
    cases h
    exact ⟨as, t, rfl, awaiting_of_step hq hf⟩

/-- The last token is for faults only. -/
theorem finish_eq_ok {l : Token} {v : Value} (h : c.finish env l = .ok v) (l' : Token) :
    c.finish env l' = .ok v := by
  unfold finish Run.finish at h ⊢
  split at h
  · cases h
  · cases h
  · split at h
    · cases h
    · rename_i hy
      rw [if_neg hy]
      exact h

/-- Tokens that lead from one course to the same others can stand for one another. -/
theorem steps_congr {as bs cs ds : List Token}
    (h : ∀ c w, start.steps env as = .ok c → (c.steps env cs = .ok w ↔ c.steps env ds = .ok w))
    (d : Course) :
    start.steps env (as ++ (cs ++ bs)) = .ok d ↔ start.steps env (as ++ (ds ++ bs)) = .ok d := by
  simp only [steps_append, bind_eq_ok]
  constructor
  · rintro ⟨c, hc, w, hw, hd⟩
    exact ⟨c, hc, w, (h c w hc).mp hw, hd⟩
  · rintro ⟨c, hc, w, hw, hd⟩
    exact ⟨c, hc, w, (h c w hc).mpr hw, hd⟩

end Course

/-- Within its limits an evaluation gives what its course ends with. -/
theorem evaluateTokens_eq_ok {env : Environment} {ts : List Token} (hts : ts ≠ [])
    (hl : WithinLimits env ts) (v : Value) :
    evaluateTokens env ts = .ok v ↔
      ∃ c, start.steps env ts = .ok c ∧ ∀ l, c.finish env l = .ok v := by
  rw [evaluateTokens_course hts hl, bind_eq_ok]
  constructor
  · rintro ⟨c, hc, hv⟩
    exact ⟨c, hc, Course.finish_eq_ok hv⟩
  · rintro ⟨c, hc, hv⟩
    exact ⟨c, hc, hv _⟩

variable {env : Environment} {ss : List Token} {x o c : Token} {v : Value} {y : Yard}

/-- The value of a name is what the name puts on the stack. -/
theorem steps_name (hx : x.kind = .identifier) (hname : env.resolve x.name = .ok v)
    (hy : y.expectsOperand = true) : (on y).steps env [x] = .ok (on (Run.operand v y)) := by
  rw [steps_cons, step_name hx hy, hname]
  rfl

/-- The value of an expression is what the expression in parentheses puts on the stack. -/
theorem steps_group (hs : evaluateTokens env ss = .ok v) (ho : o.kind = .parenOpen)
    (hc : c.kind = .parenClose) (hy : y.expectsOperand = true) :
    (on y).steps env (o :: (ss ++ [c])) = .ok (on (Run.operand v y)) := by
  have hsentence := sentence_of_evaluateTokens hs
  have hne : ss ≠ [] := by
    rintro rfl
    exact not_sentence_nil hsentence
  obtain ⟨z, hz⟩ := hsentence.spells
  have heval : z.eval env = .ok v := by
    rw [← hz.evaluates env (ss.getLast hne), ← evaluateTokens_course hne (withinLimits_of_eq_ok hs)]
    exact hs
  rw [hz.puts_group ho hc hy, heval]
  rfl

/-- Behind any tokens that end in no call, the name and the expression lead to the same course. -/
theorem steps_name_iff {as : List Token}
    (hcall : ∀ f, as.getLast? = some f → f.kind ≠ .functionCall)
    (hx : x.kind = .identifier) (hname : env.resolve x.name = .ok v)
    (hs : evaluateTokens env ss = .ok v) (ho : o.kind = .parenOpen) (hc : c.kind = .parenClose)
    (d w : Course) (hd : start.steps env as = .ok d) :
    d.steps env [x] = .ok w ↔ d.steps env (o :: (ss ++ [c])) = .ok w := by
  obtain ⟨y, waiting⟩ := d
  cases waiting with
  | some f =>
    obtain ⟨bs, t, rfl, ht⟩ := awaiting_of_steps hd rfl
    exact absurd ht (hcall t (by simp))
  | none =>
    change (on y).steps env [x] = .ok w ↔ (on y).steps env (o :: (ss ++ [c])) = .ok w
    cases hy : y.expectsOperand with
    | true => rw [steps_name hx hname hy, steps_group hs ho hc hy]
    | false =>
      exact ⟨fun h => absurd h (not_steps (.inl hx) hy _ w),
        fun h => absurd h (not_steps (.inr ho) hy _ w)⟩

/-- Where no limit fires, a name and an expression in parentheses with the same value can stand for
one another: each gives a result exactly if the other gives the same. -/
theorem evaluateTokens_substitute (env : Environment) (as bs ss : List Token) (x o c : Token)
    (v : Value) (hx : x.kind = .identifier)
    (hcall : ∀ f, as.getLast? = some f → f.kind ≠ .functionCall)
    (hname : env.resolve x.name = .ok v) (hs : evaluateTokens env ss = .ok v)
    (ho : o.kind = .parenOpen) (hc : c.kind = .parenClose)
    (hl : WithinLimits env (as ++ x :: bs)) (hl' : WithinLimits env (as ++ o :: (ss ++ c :: bs)))
    (w : Value) :
    evaluateTokens env (as ++ o :: (ss ++ c :: bs)) = .ok w ↔
      evaluateTokens env (as ++ x :: bs) = .ok w := by
  have hcourse : ∀ d, start.steps env (as ++ ([x] ++ bs)) = .ok d ↔
      start.steps env (as ++ ((o :: (ss ++ [c])) ++ bs)) = .ok d :=
    steps_congr (steps_name_iff hcall hx hname hs ho hc)
  have hlong : as ++ o :: (ss ++ c :: bs) = as ++ ((o :: (ss ++ [c])) ++ bs) := by simp
  rw [evaluateTokens_eq_ok (by simp) hl', evaluateTokens_eq_ok (by simp) hl, hlong]
  constructor
  · rintro ⟨d, hd, hw⟩
    exact ⟨d, (hcourse d).mpr hd, hw⟩
  · rintro ⟨d, hd, hw⟩
    exact ⟨d, (hcourse d).mp hd, hw⟩

/-- A name and an expression that are both true. -/
def flagged : Environment := Environment.empty.defineConstant "a" (.bool true)

def flag : Token := ⟨.identifier, .name "a", default⟩

def blank : Token := .bare .literal default

def disjunction : List Token := [blank, .bare .or default, .bare .not default, blank]

/-- The operators in parentheses leave the negation in front of them alone. -/
theorem evaluateTokens_substitute_disjunction :
    flagged.resolve flag.name = .ok (.bool true) ∧
    evaluateTokens flagged disjunction = .ok (.bool true) ∧
    WithinLimits flagged ([.bare .not default] ++ flag :: [.bare .or default, blank]) ∧
    WithinLimits flagged ([.bare .not default] ++ .bare .parenOpen default ::
      (disjunction ++ .bare .parenClose default :: [.bare .or default, blank])) ∧
    (evaluateTokens flagged ([.bare .not default] ++ .bare .parenOpen default ::
        (disjunction ++ .bare .parenClose default :: [.bare .or default, blank])) =
          .ok (.bool false) ↔
      evaluateTokens flagged ([.bare .not default] ++ flag :: [.bare .or default, blank]) =
        .ok (.bool false)) := by
  have hl : WithinLimits flagged ([.bare .not default] ++ flag :: [.bare .or default, blank]) :=
    withinLimits_of_eq_ok (v := .bool false) rfl
  have hl' : WithinLimits flagged ([.bare .not default] ++ .bare .parenOpen default ::
      (disjunction ++ .bare .parenClose default :: [.bare .or default, blank])) :=
    withinLimits_of_eq_ok (v := .bool false) rfl
  have hcall : ∀ f, [Token.bare .not default].getLast? = some f → f.kind ≠ .functionCall := by
    rintro f ⟨⟩
    decide
  exact ⟨rfl, rfl, hl, hl', evaluateTokens_substitute flagged [.bare .not default]
    [.bare .or default, blank] disjunction flag (.bare .parenOpen default)
    (.bare .parenClose default) (.bool true) rfl hcall rfl rfl rfl rfl hl hl' (.bool false)⟩

end Formula
