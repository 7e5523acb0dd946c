import Formula.Proofs.Course

/-! The course of a run under the limits on tokens and on brackets. As long as time does not run
out, these limits and the course decide what an evaluation gives. -/
namespace Formula

/-- Time does not run out wherever the run of the tokens looks at it. -/
def InTime (env : Environment) (ts : List Token) : Prop :=
  ∀ as t bs r, ts = as ++ t :: bs → Run.start.steps env as = .ok r → r.awaiting = none →
    r.consumed < env.limits.steps → r.elapsed ≤ env.limits.time

/-- The faults of the limits on tokens and on brackets. -/
inductive Limits.Exceeded (limits : Limits) : Fault → Prop
  | steps (k : Nat) : Exceeded limits (.tooManySteps limits.steps k)
  | depth (k : Nat) (s : Span) : Exceeded limits (.tooDeep limits.depth k s)

namespace Course

/-- The token of the bracket that a token opens: its own one, or that of the call that waits. -/
def opening? (c : Course) (t : Token) : Option Token :=
  if c.yard.expectsOperand then
    match c.awaiting with
    | some call => if t.kind = .parenOpen then some call else none
    | none => if t.kind.isOpener then some t else none
  else none

/-- The fault of a limit in front of a token with `n` tokens behind, whatever time it is. The
parenthesis of a call is not counted as a step. -/
def limit? (limits : Limits) (n : Nat) (c : Course) (t : Token) : Option Fault :=
  if c.awaiting.isNone ∧ limits.steps < n + 1 then some (.tooManySteps limits.steps (n + 1))
  else
    (c.opening? t).bind fun o =>
      if limits.depth < c.yard.frames.length + 1 then
        some (.tooDeep limits.depth (c.yard.frames.length + 1) o.span)
      else none

/-- The course of tokens as far as the limits let it, with `n` tokens behind. -/
def metered (limits : Limits) (env : Environment) : Nat → Course → List Token → Except Fault Course
  | _, c, [] => .ok c
  | n, c, t :: ts =>
    match c.limit? limits n t with
    | some e => .error e
    | none => c.step env t >>= fun d => d.metered limits env (n + 1) ts

variable {limits : Limits} {env : Environment} {n : Nat} {c : Course} {t : Token}
  {as bs ts : List Token} {e : Fault}

theorem opening?_eq_some {o : Token} :
    c.opening? t = some o ↔ c.yard.expectsOperand = true ∧
      ((c.awaiting = some o ∧ t.kind = .parenOpen) ∨
        (c.awaiting = none ∧ t.kind.isOpener = true ∧ t = o)) := by
  unfold opening?
  cases hy : c.yard.expectsOperand <;> cases ha : c.awaiting <;> simp [and_comm]

theorem limit?_eq_some :
    c.limit? limits n t = some e ↔
      ((c.awaiting = none ∧ limits.steps < n + 1) ∧ e = .tooManySteps limits.steps (n + 1)) ∨
      (¬ (c.awaiting = none ∧ limits.steps < n + 1) ∧ ∃ o, c.opening? t = some o ∧
        limits.depth < c.yard.frames.length + 1 ∧
        e = .tooDeep limits.depth (c.yard.frames.length + 1) o.span) := by
  simp only [limit?, Option.isNone_iff_eq_none]
  split
  · rename_i hs
    simp [hs, eq_comm]
  · rename_i hs
    simp only [hs, false_and, false_or, not_false_eq_true, true_and, Option.bind_eq_some_iff,
      Option.ite_none_right_eq_some, Option.some.injEq, @eq_comm _ e]

theorem limit?_eq_none :
    c.limit? limits n t = none ↔
      (c.awaiting = none → n < limits.steps) ∧
        ∀ o, c.opening? t = some o → c.yard.frames.length < limits.depth := by
  simp only [limit?, Option.isNone_iff_eq_none]
  split
  · rename_i hs
    simp only [reduceCtorEq, false_iff, not_and]
    intro hn
    have := hn hs.1
    omega
  · rename_i hs
    rw [Option.bind_eq_none_iff]
    constructor
    · intro h
      refine ⟨fun ha => by_contra fun hn => hs ⟨ha, by omega⟩, fun o ho => ?_⟩
      have hd := h o ho
      split at hd
      · cases hd
      · omega
    · intro h o ho
      have hd := h.2 o ho
      exact if_neg (by omega)

theorem exceeded_of_limit? (h : c.limit? limits n t = some e) : limits.Exceeded e := by
  rcases limit?_eq_some.mp h with ⟨-, rfl⟩ | ⟨-, o, -, -, rfl⟩
  · exact .steps _
  · exact .depth _ _

/-- Without limits the bracket is there. -/
theorem step_of_opening? {o : Token} (h : c.opening? t = some o) :
    ∃ d, c.step env t = .ok d ∧ d.yard.frames.length = c.yard.frames.length + 1 := by
  obtain ⟨hy, ho⟩ := opening?_eq_some.mp h
  have hopen : ∀ (u : Token) (collected : Collected),
      onOpen c.yard u collected =
        .ok { c.yard.openFrame collected u.span with expectsOperand := true } :=
    fun _ _ => onOpen_eq_ok.mpr ⟨hy, rfl⟩
  rcases ho with ⟨ha, hk⟩ | ⟨ha, hk, rfl⟩
  · simp only [step, ha, if_pos hk, hopen]
    exact ⟨_, rfl, rfl⟩
  · cases hkind : t.kind with
    | parenOpen | arrayOpen =>
      simp only [step, ha, process, hkind, hopen]
      exact ⟨_, rfl, rfl⟩
    | _ => simp [hkind, Kind.isOpener, Kind.role] at hk

theorem metered_none (h : c.limit? limits n t = none) :
    c.metered limits env n (t :: ts) =
      c.step env t >>= fun d => d.metered limits env (n + 1) ts := by
  simp only [metered, h]

theorem metered_some (h : c.limit? limits n t = some e) :
    c.metered limits env n (t :: ts) = .error e := by
  simp only [metered, h]

theorem metered_append :
    c.metered limits env n (as ++ bs) =
      c.metered limits env n as >>= fun d => d.metered limits env (n + as.length) bs := by
  induction as generalizing n c with
  | nil => rfl
  | cons a as ih =>
    cases h : c.limit? limits n a with
    | some e =>
      rw [List.cons_append, metered_some h, metered_some h]
      rfl
    | none =>
      rw [List.cons_append, metered_none h, metered_none h, bind_bind]
      refine bind_congr fun d _ => ?_
      rw [ih, List.length_cons, Nat.add_right_comm, Nat.add_assoc]

/-- No limit fires on the way of a course that never meets one. -/
theorem metered_eq_steps
    (h : ∀ as t bs d, ts = as ++ t :: bs → c.steps env as = .ok d →
      d.limit? limits (n + as.length) t = none) :
    c.metered limits env n ts = c.steps env ts := by
  induction ts generalizing n c with
  | nil => rfl
  | cons t ts ih =>
    have hnow : c.limit? limits n t = none := by simpa using h [] t ts c rfl rfl
    rw [metered_none hnow, steps_cons]
    refine bind_congr fun d hd => ih fun as u bs q hts hq => ?_
    have hmore := h (t :: as) u bs q (by rw [hts]; rfl) (by rw [steps_cons, hd]; exact hq)
    rwa [List.length_cons, ← Nat.add_assoc, Nat.add_right_comm] at hmore

end Course

namespace Run

variable {env : Environment} {r r' : Run} {t : Token} {ts : List Token} {e : Fault}

theorem consumed_of_process (h : process env r t = .ok r') : r'.consumed = r.consumed + 1 := by
  unfold process at h
  dsimp only at h
  split at h
  case h_9 | h_10 =>
    obtain ⟨⟨z, time⟩, -, rfl⟩ := map_eq_ok.mp h
    rfl
  all_goals
    obtain ⟨_, -, rfl⟩ := map_eq_ok.mp h
    rfl

/-- Every step takes one token. -/
theorem consumed_of_step (h : r.step env t = .ok r') : r'.consumed = r.consumed + 1 := by
  unfold step at h
  split at h
  · unfold openCall at h
    split at h
    · obtain ⟨_, -, rfl⟩ := map_eq_ok.mp h
      rfl
    · cases h
  · obtain ⟨_, -, h⟩ := bind_eq_ok.mp h
    exact consumed_of_process h

theorem checkDepth_eq_error {limits : Limits} {y : Yard} :
    checkDepth limits y t = .error e ↔ limits.depth < y.frames.length + 1 ∧
      e = .tooDeep limits.depth (y.frames.length + 1) t.span := by
  unfold checkDepth
  split
  · rename_i hd
    simp [hd, eq_comm]
  · rename_i hd
    simp [hd]

theorem checkBudget_of_inTime (ht : r.consumed < env.limits.steps → r.elapsed ≤ env.limits.time) :
    checkBudget env.limits r =
      if env.limits.steps < r.consumed + 1 then
        .error (.tooManySteps env.limits.steps (r.consumed + 1))
      else .ok () := by
  by_cases hs : env.limits.steps < r.consumed + 1
  · simp [checkBudget, hs]
  · have hle := ht (by omega)
    simp [checkBudget, hs, Nat.not_lt.mpr hle]

/-- As long as there is time, a run is limited exactly where its course is. -/
theorem limited_iff
    (ht : r.awaiting = none → r.consumed < env.limits.steps → r.elapsed ≤ env.limits.time) :
    r.Limited env.limits t e ↔ r.course.limit? env.limits r.consumed t = some e := by
  rw [Course.limit?_eq_some]
  change _ ↔ ((r.awaiting = none ∧ _) ∧ _) ∨ (¬ (r.awaiting = none ∧ _) ∧ _)
  constructor
  · intro h
    cases h with
    | budget ha he =>
      rw [checkBudget_of_inTime (ht ha)] at he
      split at he <;> cases he
      exact .inl ⟨⟨ha, by assumption⟩, rfl⟩
    | bracket ha hb hk hy hd =>
      rw [checkBudget_of_inTime (ht ha)] at hb
      split at hb
      · cases hb
      · rename_i hs
        have ho : r.course.opening? t = some t :=
          Course.opening?_eq_some.mpr ⟨hy, .inr ⟨ha, hk, rfl⟩⟩
        exact .inr ⟨fun h => hs h.2, t, ho, checkDepth_eq_error.mp hd⟩
    | @call call _ ha hk hy hd =>
      have ho : r.course.opening? t = some call :=
        Course.opening?_eq_some.mpr ⟨hy, .inl ⟨ha, hk⟩⟩
      exact .inr ⟨by simp [ha], call, ho, checkDepth_eq_error.mp hd⟩
  · rintro (⟨⟨ha, hs⟩, rfl⟩ | ⟨hs, o, ho, hd⟩)
    · exact .budget ha (by rw [checkBudget_of_inTime (ht ha), if_pos hs])
    · obtain ⟨hy, ⟨ha, hk⟩ | ⟨ha, hk, rfl⟩⟩ := Course.opening?_eq_some.mp ho
      · exact .call ha hk hy (checkDepth_eq_error.mpr hd)
      · have hb : checkBudget env.limits r = .ok () := by
          rw [checkBudget_of_inTime (ht ha), if_neg fun hlt => hs ⟨ha, hlt⟩]
        exact .bracket ha hb hk hy (checkDepth_eq_error.mpr hd)

/-- As long as there is time, a run takes its metered course. -/
theorem steps_metered
    (ht : ∀ as t bs q, ts = as ++ t :: bs → r.steps env as = .ok q → q.awaiting = none →
      q.consumed < env.limits.steps → q.elapsed ≤ env.limits.time) :
    (r.steps env ts).map course = r.course.metered env.limits env r.consumed ts := by
  induction ts generalizing r with
  | nil => rfl
  | cons t ts ih =>
    have hlimited : ∀ {e}, r.Limited env.limits t e ↔ _ := limited_iff (ht [] t ts r rfl rfl)
    rw [steps_cons]
    cases hl : r.course.limit? env.limits r.consumed t with
    | some e =>
      rw [(hlimited.mpr hl).step, Course.metered_some hl]
      rfl
    | none =>
      have hs := step_course fun e (h : r.Limited env.limits t e) => by
        rw [hlimited, hl] at h
        cases h
      rw [Course.metered_none hl, ← hs, map_bind, bind_map]
      refine bind_congr fun q hq => ?_
      rw [← consumed_of_step hq]
      refine ih fun as u bs p hts hp => ht (t :: as) u bs p (by rw [hts]; rfl) ?_
      rw [steps_cons, hq]
      exact hp

end Run

/-- As long as there is time, an evaluation gives what its metered course ends with. -/
theorem evaluateTokens_metered {env : Environment} {ts : List Token} (hts : ts ≠ [])
    (h : InTime env ts) :
    evaluateTokens env ts =
      Course.start.metered env.limits env 0 ts >>= fun c => c.finish env (ts.getLast hts) := by
  have hs : (Run.start.steps env ts).map Run.course = Course.start.metered env.limits env 0 ts :=
    Run.steps_metered h
  rw [evaluateTokens_of_ne_nil env hts, ← hs]
  cases Run.start.steps env ts with
  | error e => rfl
  | ok r => rfl

namespace Run

variable {env : Environment} {r r' : Run} {t : Token} {ts : List Token}

theorem elapsed_of_onClose (h : ∀ name, env.callDuration name = 0) {y z : Yard} {time : Nat}
    (hz : onClose env y t = .ok (z, time)) : time = 0 := by
  have hvalue : ∀ {f last v}, closeValue env f t last = .ok (v, time) → time = 0 := by
    intro f last v hv
    unfold closeValue at hv
    split at hv
    · cases hv
      rfl
    · obtain ⟨_, -, hv⟩ := map_eq_ok.mp (mapError_eq_ok.mp hv)
      cases hv
      exact h _
    · split at hv
      · cases hv
        rfl
      · obtain ⟨_, -, hv⟩ := map_eq_ok.mp (mapError_eq_ok.mp hv)
        cases hv
        rfl
  obtain ⟨f, fs, -, -, ⟨-, v, hv, -⟩ | ⟨-, -, w, u, vs, v, -, -, -, hv, -⟩⟩ := onClose_eq_ok hz
  · exact hvalue hv
  · exact hvalue hv

/-- Only functions take time. -/
theorem elapsed_of_step (h : ∀ name, env.callDuration name = 0) (hs : r.step env t = .ok r') :
    r'.elapsed = r.elapsed := by
  unfold step at hs
  split at hs
  · unfold openCall at hs
    split at hs
    · obtain ⟨_, -, rfl⟩ := map_eq_ok.mp hs
      rfl
    · cases hs
  · obtain ⟨_, -, hs⟩ := bind_eq_ok.mp hs
    unfold process at hs
    dsimp only at hs
    split at hs
    case h_9 | h_10 =>
      obtain ⟨⟨z, time⟩, hz, rfl⟩ := map_eq_ok.mp hs
      rw [elapsed_of_onClose h hz]
      rfl
    all_goals
      obtain ⟨_, -, rfl⟩ := map_eq_ok.mp hs
      rfl

theorem elapsed_of_steps (h : ∀ name, env.callDuration name = 0) (hs : r.steps env ts = .ok r') :
    r'.elapsed = r.elapsed := by
  induction ts generalizing r with
  | nil =>
    cases hs
    rfl
  | cons t ts ih =>
    rw [steps_cons] at hs
    obtain ⟨q, hq, hs⟩ := bind_eq_ok.mp hs
    rw [ih hs, elapsed_of_step h hq]

end Run

/-- Where no function takes time, time does not run out. -/
theorem inTime_of_callDuration {env : Environment} (h : ∀ name, env.callDuration name = 0)
    (ts : List Token) : InTime env ts := by
  intro as t bs r _ hr _ _
  rw [Run.elapsed_of_steps h hr]
  exact Nat.zero_le _

end Formula
