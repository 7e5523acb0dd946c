import Formula.Proofs.Interruption

/-! The course of an evaluation whose limits do not fire: the stacks and the call that waits, with
no account of steps, time or depth. -/
namespace Formula

/-- No limit stops the run of the tokens, wherever it gets to. -/
def WithinLimits (env : Environment) (ts : List Token) : Prop :=
  ∀ as t bs r e, ts = as ++ t :: bs → Run.start.steps env as = .ok r →
    ¬ r.Limited env.limits t e

structure Course where
  yard : Yard
  awaiting : Option Token

def Run.course (r : Run) : Course := ⟨r.yard, r.awaiting⟩

namespace Course

def start : Course := ⟨.empty, none⟩

/-- The course goes on with these stacks. -/
def on (y : Yard) : Course := ⟨y, none⟩

/-- Opens a bracket, however many are open. -/
def onOpen (y : Yard) (t : Token) (collected : Collected) : Except Fault Yard := do
  Run.requireOperand y t
  return { y.openFrame collected t.span with expectsOperand := true }

/-- The effect of a token, whatever it costs. -/
def process (env : Environment) (y : Yard) (t : Token) : Except Fault Course :=
  match t.kind with
  | .number | .literal => (Run.onValue y t (.ok t.value)).map on
  | .identifier =>
    (Run.onValue y t ((env.resolve t.name).mapError (Fault.orSpan · t.span))).map on
  | .functionCall => (Run.requireOperand y t).map fun _ => ⟨y, some t⟩
  | .parenOpen => (onOpen y t .group).map on
  | .arrayOpen => (onOpen y t (.array [] none)).map on
  | .comma => (Run.onComma env y t).map on
  | .pairArrow => (Run.onArrow env y t).map on
  | .parenClose | .arrayClose => (Run.onClose env y t).map fun (y, _) => on y
  | .unaryPlus | .unaryMinus | .not => (Run.onPrefix y t).map on
  | _ => (Run.onInfix env y t).map on

def step (env : Environment) (c : Course) (t : Token) : Except Fault Course :=
  match c.awaiting with
  | some call =>
    if t.kind = .parenOpen then (onOpen c.yard call (.call call.name [])).map on
    else .error (.unexpected t)
  | none => process env c.yard t

def steps (env : Environment) (c : Course) (ts : List Token) : Except Fault Course :=
  ts.foldlM (step env) c

def finish (env : Environment) (c : Course) (last : Token) : Except Fault Value :=
  Run.finish env ⟨c.yard, c.awaiting, 0, 0⟩ last

variable {env : Environment} {c : Course} {t : Token}

@[simp] theorem steps_nil : c.steps env [] = .ok c := rfl

theorem steps_cons {ts : List Token} :
    c.steps env (t :: ts) = c.step env t >>= fun c => c.steps env ts := rfl

theorem steps_append {as bs : List Token} :
    c.steps env (as ++ bs) = c.steps env as >>= fun c => c.steps env bs := List.foldlM_append

variable {y : Yard}

theorem step_value (ht : t.kind = .number ∨ t.kind = .literal) (hy : y.expectsOperand = true) :
    (on y).step env t = .ok (on (Run.operand t.value y)) := by
  rcases ht with ht | ht
  all_goals
    simp only [step, on, process, ht, Run.onValue, Run.requireOperand_ok hy, ok_bind]
    rfl

theorem step_name (ht : t.kind = .identifier) (hy : y.expectsOperand = true) :
    (on y).step env t =
      ((env.resolve t.name).mapError (Fault.orSpan · t.span)).map fun v =>
        on (Run.operand v y) := by
  simp only [step, on, process, ht, Run.onValue, Run.requireOperand_ok hy, ok_bind]
  cases (env.resolve t.name).mapError (Fault.orSpan · t.span) with
  | error e => rfl
  | ok v => rfl

theorem step_closer (ht : t.kind.isCloser = true) (y : Yard) :
    (on y).step env t = (Run.onClose env y t).map fun q => on q.1 := by
  obtain ⟨k, p, s⟩ := t
  cases k <;> first | rfl | cases ht

/-- Where no operand may begin, neither a name nor a parenthesis is taken. -/
theorem not_steps (ht : t.kind = .identifier ∨ t.kind = .parenOpen) (hy : y.expectsOperand = false)
    (ts : List Token) (d : Course) : (on y).steps env (t :: ts) ≠ .ok d := by
  have hreq : Run.requireOperand y t = .error (.unexpected t) := by simp [Run.requireOperand, hy]
  have hs : (on y).step env t = .error (.unexpected t) := by
    rcases ht with ht | ht
    · simp only [step, on, process, ht, Run.onValue, hreq]
      rfl
    · simp only [step, on, process, ht, onOpen, hreq]
      rfl
  rw [steps_cons, hs]
  rintro ⟨⟩

theorem onOpen_eq_ok {collected : Collected} {z : Yard} :
    onOpen y t collected = .ok z ↔ y.expectsOperand = true ∧
      z = { y.openFrame collected t.span with expectsOperand := true } := by
  constructor
  · intro h
    obtain ⟨_, hy, h⟩ := bind_eq_ok.mp h
    cases h
    exact ⟨Run.requireOperand_eq_ok.mp hy, rfl⟩
  · rintro ⟨hy, rfl⟩
    rw [onOpen, Run.requireOperand_ok hy]
    rfl

/-- Every way in which a course takes a token. -/
inductive Moves (env : Environment) (c : Course) (t : Token) : Course → Prop
  | operand {v} (ha : c.awaiting = none)
      (hk : t.kind = .number ∨ t.kind = .literal ∨ t.kind = .identifier)
      (hy : c.yard.expectsOperand = true) (hv : v = t.value ∨ env.resolve t.name = .ok v) :
      Moves env c t (on (Run.operand v c.yard))
  | name (ha : c.awaiting = none) (hk : t.kind = .functionCall)
      (hy : c.yard.expectsOperand = true) : Moves env c t ⟨c.yard, some t⟩
  | called {call z} (ha : c.awaiting = some call) (hk : t.kind = .parenOpen)
      (hz : onOpen c.yard call (.call call.name []) = .ok z) : Moves env c t (on z)
  | opened {collected z} (ha : c.awaiting = none) (hk : t.kind.isOpener = true)
      (hc : collected = .group ∨ collected = .array [] none)
      (hz : onOpen c.yard t collected = .ok z) : Moves env c t (on z)
  | separated {z} (ha : c.awaiting = none) (hk : t.kind.isSeparator = true)
      (hz : Run.Separated env c.yard t.kind z) : Moves env c t (on z)
  | closed {z time} (ha : c.awaiting = none) (hk : t.kind.isCloser = true)
      (hz : Run.onClose env c.yard t = .ok (z, time)) : Moves env c t (on z)
  | prefixed (ha : c.awaiting = none) (hk : t.kind.isPrefixOperator = true)
      (hy : c.yard.expectsOperand = true) : Moves env c t (on (c.yard.pushPrefix t.kind t.span))
  | operation {w} (ha : c.awaiting = none) (hk : t.kind.isInfixOperator = true)
      (hy : c.yard.expectsOperand = false) (hw : c.yard.pushBinary env t.kind t.span = .ok w) :
      Moves env c t (on { w with expectsOperand := true })

theorem moves_of_step {d : Course} (h : c.step env t = .ok d) : c.Moves env t d := by
  simp only [step] at h
  split at h
  · rename_i call ha
    split at h
    · rename_i hk
      obtain ⟨z, hz, rfl⟩ := map_eq_ok.mp h
      exact .called ha hk hz
    · cases h
  · rename_i ha
    simp only [process] at h
    split at h
    case h_1 hk | h_2 hk =>
      obtain ⟨z, hz, rfl⟩ := map_eq_ok.mp h
      obtain ⟨hy, v, hv, rfl⟩ := Run.onValue_eq_ok hz
      cases hv
      exact .operand ha (by simp [hk]) hy (.inl rfl)
    case h_3 hk =>
      obtain ⟨z, hz, rfl⟩ := map_eq_ok.mp h
      obtain ⟨hy, v, hv, rfl⟩ := Run.onValue_eq_ok hz
      exact .operand ha (by simp [hk]) hy (.inr (mapError_eq_ok.mp hv))
    case h_4 hk =>
      obtain ⟨_, hy, rfl⟩ := map_eq_ok.mp h
      exact .name ha hk (Run.requireOperand_eq_ok.mp hy)
    case h_5 hk =>
      obtain ⟨z, hz, rfl⟩ := map_eq_ok.mp h
      exact .opened ha (by rw [hk]; rfl) (.inl rfl) hz
    case h_6 hk =>
      obtain ⟨z, hz, rfl⟩ := map_eq_ok.mp h
      exact .opened ha (by rw [hk]; rfl) (.inr rfl) hz
    case h_7 hk =>
      obtain ⟨z, hz, rfl⟩ := map_eq_ok.mp h
      exact .separated ha (by rw [hk]; rfl) (by rw [hk]; exact Run.onComma_eq_ok hz)
    case h_8 hk =>
      obtain ⟨z, hz, rfl⟩ := map_eq_ok.mp h
      exact .separated ha (by rw [hk]; rfl) (by rw [hk]; exact Run.onArrow_eq_ok hz)
    case h_9 hk | h_10 hk =>
      obtain ⟨⟨z, time⟩, hz, rfl⟩ := map_eq_ok.mp h
      exact .closed ha (by rw [hk]; rfl) hz
    case h_11 hk | h_12 hk | h_13 hk =>
      obtain ⟨z, hz, rfl⟩ := map_eq_ok.mp h
      obtain ⟨hy, rfl⟩ := Run.onPrefix_eq_ok hz
      exact .prefixed ha (by rw [hk]; rfl) hy
    case h_14 =>
      obtain ⟨z, hz, rfl⟩ := map_eq_ok.mp h
      obtain ⟨hy, w, hw, rfl⟩ := Run.onInfix_eq_ok hz
      exact .operation ha (t.kind.isInfixOperator_or.resolve_right (by simp_all)) hy hw

/-- Behind the name of a call, and there only, its parenthesis is awaited. -/
theorem Moves.awaiting {d : Course} (h : c.Moves env t d) :
    d.awaiting = if t.kind = .functionCall then some t else none := by
  cases h with
  | name _ hk _ => rw [if_pos hk]
  | operand _ hk _ => rcases hk with hk | hk | hk <;> rw [hk] <;> rfl
  | called _ hk _ => rw [hk]; rfl
  | opened _ hk | separated _ hk | closed _ hk | prefixed _ hk | operation _ hk =>
    refine (if_neg fun hcall => ?_).symm
    rw [hcall] at hk
    cases hk

end Course

namespace Run

variable {env : Environment} {r : Run} {t : Token}

/-- A bracket opens as if there were no limit, unless there is one too many. -/
theorem onOpen_course {limits : Limits} {y : Yard} {c : Collected}
    (h : y.expectsOperand = true → ∀ e, checkDepth limits y t ≠ .error e) :
    onOpen limits y t c = Course.onOpen y t c := by
  unfold onOpen Course.onOpen
  cases hy : y.expectsOperand with
  | false =>
    have he : requireOperand y t = .error (.unexpected t) := by simp [requireOperand, hy]
    rw [he]
    rfl
  | true =>
    cases hd : checkDepth limits y t with
    | error e => exact absurd hd (h hy e)
    | ok u => rw [requireOperand_ok hy]; rfl

theorem process_course (ha : r.awaiting = none) (hb : checkBudget env.limits r = .ok ())
    (h : ∀ e, ¬ r.Limited env.limits t e) :
    (process env r t).map course = Course.process env r.yard t := by
  have hopen : t.kind.isOpener = true →
      ∀ c, onOpen env.limits r.yard t c = Course.onOpen r.yard t c :=
    fun hk c => onOpen_course fun hy e hd => h e (.bracket ha hb hk hy hd)
  cases hk : t.kind with
  | parenOpen | arrayOpen =>
    simp only [process, Course.process, hk]
    rw [hopen (by rw [hk]; rfl), map_map]
    rfl
  | _ =>
    simp only [process, Course.process, hk]
    exact map_map _ _ _

theorem step_course (h : ∀ e, ¬ r.Limited env.limits t e) :
    (r.step env t).map course = r.course.step env t := by
  cases ha : r.awaiting with
  | some call =>
    simp only [step, Course.step, course, ha, openCall]
    split
    · rename_i hk
      rw [onOpen_course fun hy e hd => h e (.call ha hk hy hd), map_map]
      rfl
    · rfl
  | none =>
    cases hb : checkBudget env.limits r with
    | error e => exact absurd (.budget ha hb) (h e)
    | ok u =>
      simp only [step, Course.step, course, ha, hb, ok_bind]
      exact process_course ha hb h

theorem steps_course {ts : List Token}
    (h : ∀ as t bs q e, ts = as ++ t :: bs → r.steps env as = .ok q → ¬ q.Limited env.limits t e) :
    (r.steps env ts).map course = r.course.steps env ts := by
  induction ts generalizing r with
  | nil => rfl
  | cons t ts ih =>
    have hs := step_course fun e => h [] t ts r e rfl rfl
    rw [steps_cons, Course.steps_cons, ← hs]
    cases hq : r.step env t with
    | error e => rfl
    | ok q =>
      refine ih fun as u bs p e hts hp => h (t :: as) u bs p e (by rw [hts]; rfl) ?_
      rw [steps_cons, hq, ok_bind, hp]

end Run

/-- Within its limits an evaluation takes its course. -/
theorem evaluateTokens_course {env : Environment} {ts : List Token} (hts : ts ≠ [])
    (h : WithinLimits env ts) :
    evaluateTokens env ts =
      Course.start.steps env ts >>= fun c => c.finish env (ts.getLast hts) := by
  have hs : (Run.start.steps env ts).map Run.course = Course.start.steps env ts :=
    Run.steps_course h
  rw [evaluateTokens_of_ne_nil env hts, ← hs]
  cases Run.start.steps env ts with
  | error e => rfl
  | ok r => rfl

/-- What succeeds has met no limit. -/
theorem withinLimits_of_eq_ok {env : Environment} {ts : List Token} {v : Value}
    (h : evaluateTokens env ts = .ok v) : WithinLimits env ts := by
  intro as t bs r e hts hr hl
  cases h.symm.trans (evaluateTokens_of_interrupted (.token hts hr (.limit hl)))

end Formula
