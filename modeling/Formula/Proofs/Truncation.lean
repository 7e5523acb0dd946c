import Formula.Proofs.Agreement
import Formula.Proofs.Nesting
import Formula.Proofs.Recognition

/-! Limits cut an evaluation short and do nothing else. Main statement: against an evaluation with
no limits, one with limits gives the same result or the fault of the limit that its tokens exceed
first. -/
namespace Formula

/-- Limits that allow as many tokens and brackets, or more. -/
structure Limits.Le (limits limits' : Limits) : Prop where
  steps : limits.steps ≤ limits'.steps
  depth : limits.depth ≤ limits'.depth

namespace Course

variable {limits limits' : Limits} {env : Environment} {n : Nat} {c d : Course} {t : Token}
  {ts : List Token}

theorem limit?_eq_none_of_le (hle : limits.Le limits') (h : c.limit? limits n t = none) :
    c.limit? limits' n t = none := by
  rw [limit?_eq_none] at h ⊢
  exact ⟨fun ha => (h.1 ha).trans_le hle.steps, fun o ho => (h.2 o ho).trans_le hle.depth⟩

/-- Under lower limits a course is the same, or a limit cuts it short. -/
theorem metered_raise (hle : limits.Le limits') :
    c.metered limits env n ts = c.metered limits' env n ts ∨
      ∃ e, limits.Exceeded e ∧ c.metered limits env n ts = .error e := by
  induction ts generalizing n c with
  | nil => exact .inl rfl
  | cons t ts ih =>
    cases hl : c.limit? limits n t with
    | some e => exact .inr ⟨e, exceeded_of_limit? hl, metered_some hl⟩
    | none =>
      rw [metered_none hl, metered_none (limit?_eq_none_of_le hle hl)]
      cases c.step env t with
      | error e => exact .inl rfl
      | ok d => exact ih

/-- Where there are few tokens, and never many brackets, lower limits are no different. -/
theorem metered_of_shallow (hle : limits.Le limits') (hs : n + ts.length ≤ limits.steps)
    (hd : ∀ as bs d, ts = as ++ bs → c.metered limits' env n as = .ok d →
      d.yard.frames.length ≤ limits.depth) :
    c.metered limits env n ts = c.metered limits' env n ts := by
  induction ts generalizing n c with
  | nil => rfl
  | cons t ts ih =>
    rw [List.length_cons] at hs
    have hnow : c.yard.frames.length ≤ limits.depth := hd [] (t :: ts) c rfl rfl
    cases hl' : c.limit? limits' n t with
    | some e =>
      -- The brackets are as many as the lower limit allows, so that the limits are equal.
      rcases limit?_eq_some.mp hl' with ⟨⟨-, hmany⟩, -⟩ | ⟨-, o, ho, hdeep, rfl⟩
      · have hsteps := hle.steps
        omega
      · have hdepth := hle.depth
        have heq : limits'.depth = limits.depth := by omega
        have hl : c.limit? limits n t =
            some (.tooDeep limits'.depth (c.yard.frames.length + 1) o.span) := by
          rw [limit?_eq_some]
          exact .inr ⟨by omega, o, ho, by omega, by rw [heq]⟩
        rw [metered_some hl, metered_some hl']
    | none =>
      have hl : c.limit? limits n t = none := by
        rw [limit?_eq_none]
        refine ⟨by omega, fun o ho => ?_⟩
        obtain ⟨d, hstep, hframes⟩ : ∃ d, c.step env t = .ok d ∧ _ := step_of_opening? ho
        have hle := hd [t] ts d rfl (by rw [metered_none hl', hstep]; rfl)
        omega
      rw [metered_none hl, metered_none hl']
      refine bind_congr fun d hstep => ih (by omega) fun as bs q hts hq => ?_
      refine hd (t :: as) bs q (by rw [hts]; rfl) ?_
      rw [metered_none hl', hstep]
      exact hq

/-- The name of a call waits for its parenthesis and changes nothing else. -/
theorem step_functionCall (ha : c.awaiting = none) (hk : t.kind = .functionCall)
    (h : c.step env t = .ok d) : c.yard.expectsOperand = true ∧ d = ⟨c.yard, some t⟩ := by
  cases moves_of_step h with
  | name _ _ hy => exact ⟨hy, rfl⟩
  | called ha' => cases ha.symm.trans ha'
  | operand _ hk' =>
    rw [hk] at hk'
    simp at hk'
  | opened _ hk' | separated _ hk' | closed _ hk' | prefixed _ hk' | operation _ hk' =>
    rw [hk] at hk'
    cases hk'

/-- Only its parenthesis is taken behind the name of a call. -/
theorem step_parenthesis (ha : c.awaiting ≠ none) (h : c.step env t = .ok d) :
    t.kind = .parenOpen ∧ d.awaiting = none := by
  cases moves_of_step h with
  | called _ hk => exact ⟨hk, rfl⟩
  | operand ha' | name ha' | opened ha' | separated ha' | closed ha' | prefixed ha'
    | operation ha' => exact absurd ha' ha

/-- A bracket that is taken opens where an operand may begin. -/
theorem expectsOperand_of_opener (hk : t.kind.isOpener = true) (h : c.step env t = .ok d) :
    c.yard.expectsOperand = true := by
  cases moves_of_step h with
  | operand _ _ hy | name _ _ hy | prefixed _ _ hy => exact hy
  | called _ _ hz | opened _ _ _ hz => exact (onOpen_eq_ok.mp hz).1
  | separated _ hk' | closed _ hk' | operation _ hk' =>
    rcases Kind.eq_of_isOpener hk with hk | hk <;> rw [hk] at hk' <;> cases hk'

section Cut

variable {m : Nat} {q : Course} {u : Token} {as bs : List Token} {e : Fault}

theorem metered_append_some (h : c.metered limits env m as = .ok d)
    (hl : d.limit? limits (m + as.length) t = some e) :
    c.metered limits env m (as ++ t :: bs) = .error e := by
  rw [metered_append, h]
  exact metered_some hl

theorem metered_append_none (h : c.metered limits env m as = .ok d)
    (hl : d.limit? limits (m + as.length) t = none) (hq : d.step env t = .ok q) :
    c.metered limits env m (as ++ t :: bs) = q.metered limits env (m + as.length + 1) bs := by
  rw [metered_append, h, ok_bind, metered_none hl, hq]
  rfl

/-- A bracket that is one too many, with steps left. -/
theorem metered_bracket (h : c.metered limits env m as = .ok d) (ha : d.awaiting = none)
    (hk : t.kind.isOpener = true) (hq : d.step env t = .ok q)
    (hs : m + as.length < limits.steps) (hd : limits.depth ≤ d.yard.frames.length) :
    c.metered limits env m (as ++ t :: bs) =
      .error (.tooDeep limits.depth (d.yard.frames.length + 1) t.span) := by
  have hy := expectsOperand_of_opener hk hq
  have ho : d.opening? t = some t := opening?_eq_some.mpr ⟨hy, .inr ⟨ha, hk, rfl⟩⟩
  refine metered_append_some h (limit?_eq_some.mpr (.inr ⟨by omega, t, ho, ?_, rfl⟩))
  omega

/-- A call that is one too many meets the limit with its parenthesis, but the fault is at its
name. -/
theorem metered_call (h : c.metered limits env m as = .ok d) (ha : d.awaiting = none)
    (hk : t.kind = .functionCall) (hu : u.kind = .parenOpen) (hq : d.step env t = .ok q)
    (hs : m + as.length < limits.steps) (hd : limits.depth ≤ d.yard.frames.length) :
    c.metered limits env m (as ++ t :: u :: bs) =
      .error (.tooDeep limits.depth (d.yard.frames.length + 1) t.span) := by
  obtain ⟨hy, rfl⟩ := step_functionCall ha hk hq
  have hl : d.limit? limits (m + as.length) t = none := by
    rw [limit?_eq_none]
    refine ⟨fun _ => hs, fun o ho => ?_⟩
    obtain ⟨-, ⟨-, hopen⟩ | ⟨-, hopen, -⟩⟩ := opening?_eq_some.mp ho
    · cases hk.symm.trans hopen
    · rw [hk] at hopen
      cases hopen
  have ho : opening? ⟨d.yard, some t⟩ u = some t := opening?_eq_some.mpr ⟨hy, .inl ⟨rfl, hu⟩⟩
  rw [metered_append_none h hl hq]
  refine metered_some (limit?_eq_some.mpr (.inr ⟨by simp, t, ho, ?_, rfl⟩))
  exact Nat.lt_succ_of_le hd

/-- No step is left. -/
theorem metered_last (h : c.metered limits env m as = .ok d) (ha : d.awaiting = none)
    (hs : limits.steps ≤ m + as.length) :
    c.metered limits env m (as ++ t :: bs) =
      .error (.tooManySteps limits.steps (m + as.length + 1)) :=
  metered_append_some h (limit?_eq_some.mpr (.inl ⟨⟨ha, by omega⟩, rfl⟩))

/-- No step is left, but the parenthesis of a call is still taken. -/
theorem metered_lastCall (h : c.metered limits env m as = .ok d) (ha : d.awaiting ≠ none)
    (hd : d.yard.frames.length < limits.depth) (hq : d.step env t = .ok q)
    (hs : limits.steps ≤ m + as.length) :
    c.metered limits env m (as ++ t :: u :: bs) =
      .error (.tooManySteps limits.steps (m + as.length + 1 + 1)) := by
  have hl : d.limit? limits (m + as.length) t = none :=
    limit?_eq_none.mpr ⟨fun hnone => absurd hnone ha, fun _ _ => hd⟩
  rw [metered_append_none h hl hq]
  have hnone := (step_parenthesis ha hq).2
  exact metered_some (limit?_eq_some.mpr (.inl ⟨⟨hnone, by omega⟩, rfl⟩))

end Cut

end Course

section Successful

variable {env : Environment} {limits : Limits} {as bs ts : List Token} {t : Token} {v : Value}
  {c : Course}

/-- Where a successful evaluation is behind some of its tokens. -/
theorem course_of_append (hv : evaluateTokens env (as ++ bs) = .ok v) :
    ∃ c d, Course.start.steps env as = .ok c ∧ c.steps env bs = .ok d ∧
      c.yard.frames.length = nesting as ∧
      (c.awaiting.isSome = true ↔ as.getLast?.map Token.kind = some .functionCall) := by
  have hlimits := withinLimits_of_eq_ok hv
  have hts : as ++ bs ≠ [] := by
    intro hnil
    rw [hnil] at hv
    cases hv
  rw [evaluateTokens_of_ne_nil env hts] at hv
  obtain ⟨r, hr, -⟩ := bind_eq_ok.mp hv
  have hall : (Run.start.steps env (as ++ bs)).map Run.course = Course.start.steps env (as ++ bs) :=
    Run.steps_course hlimits
  rw [hr, Course.steps_append] at hall
  rw [Run.steps_append] at hr
  obtain ⟨q, hq, -⟩ := bind_eq_ok.mp hr
  have hpart : (Run.start.steps env as).map Run.course = Course.start.steps env as := by
    refine Run.steps_course fun as' t bs' p e hsplit hp => hlimits as' t (bs' ++ bs) p e ?_ hp
    simp [hsplit]
  rw [hq] at hpart
  rw [← hpart] at hall
  exact ⟨q.course, r.course, hpart.symm, hall.symm, (Run.length_frames hq).1,
    (Run.agrees_of_steps hq).1⟩

/-- A token that does not stand too deep meets no limit, as long as steps are left. -/
theorem limit?_of_not_deeperAt (hv : evaluateTokens env (as ++ t :: bs) = .ok v)
    (hc : Course.start.steps env as = .ok c) (hs : c.awaiting = none → as.length < limits.steps)
    (hd : ¬ DeeperAt limits.depth (as ++ t :: bs) as.length) :
    c.limit? limits as.length t = none := by
  obtain ⟨c', -, hc', -, hframes, -⟩ := course_of_append hv
  cases hc.symm.trans hc'
  rw [Course.limit?_eq_none]
  refine ⟨hs, fun o ho => by_contra fun hdeep => hd (deeperAt_iff.mpr ⟨.inl ?_, by omega⟩)⟩
  obtain ⟨-, ⟨-, hk⟩ | ⟨-, hk, -⟩⟩ := Course.opening?_eq_some.mp ho
  · rw [hk]
    rfl
  · exact hk

/-- Up to the first limit the metered course is the whole course. -/
theorem metered_of_first (hv : evaluateTokens env (as ++ bs) = .ok v)
    (hs : as.length ≤ limits.steps) (hd : ∀ j < as.length, ¬ DeeperAt limits.depth (as ++ bs) j) :
    Course.start.metered limits env 0 as = Course.start.steps env as := by
  refine Course.metered_eq_steps fun as' t bs' d hsplit hd' => ?_
  have hlength : as'.length < as.length := by simp [hsplit]
  have heq : as ++ bs = as' ++ t :: (bs' ++ bs) := by simp [hsplit]
  rw [Nat.zero_add]
  rw [heq] at hv
  refine limit?_of_not_deeperAt hv hd' (by omega) ?_
  rw [← heq]
  exact hd _ hlength

/-- The first bracket that stands too deep, with steps left, cuts the course short. -/
theorem metered_tooDeep (hv : evaluateTokens env (as ++ t :: bs) = .ok v)
    (hs : as.length < limits.steps)
    (hd : DeeperAt limits.depth (as ++ t :: bs) as.length)
    (hfirst : ∀ j < as.length, ¬ DeeperAt limits.depth (as ++ t :: bs) j) :
    Course.start.metered limits env 0 (as ++ t :: bs) =
      .error (.tooDeep limits.depth (nesting as + 1) t.span) := by
  obtain ⟨c, d, hc, hd', hframes, hawaiting⟩ := course_of_append hv
  have hm := (metered_of_first hv hs.le hfirst).trans hc
  obtain ⟨hk, hdeep⟩ := deeperAt_iff.mp hd
  rw [Course.steps_cons] at hd'
  obtain ⟨q, hq, -⟩ := bind_eq_ok.mp hd'
  have ha : c.awaiting = none := by
    rw [← Option.not_isSome_iff_eq_none, hawaiting]
    intro hlast
    have hlt := nesting_lt_of_call hlast hfirst
    omega
  rw [← hframes] at hdeep ⊢
  rcases hk with hk | hk
  · exact Course.metered_bracket hm ha hk hq (by omega) hdeep
  · obtain ⟨u, cs, rfl, hu⟩ := (sentence_of_evaluateTokens hv).call_opens hk
    exact Course.metered_call hm ha hk hu hq (by omega) hdeep

/-- Without a bracket that stands too deep before, the number of steps cuts the course short. -/
theorem metered_tooManySteps (hv : evaluateTokens env ts = .ok v)
    (hn : limits.steps < ts.length) (hd : ∀ j < limits.steps, ¬ DeeperAt limits.depth ts j) :
    ∃ k, Course.start.metered limits env 0 ts = .error (.tooManySteps limits.steps k) := by
  obtain ⟨as, t, bs, rfl, hlength⟩ : ∃ as t bs, ts = as ++ t :: bs ∧ as.length = limits.steps :=
    ⟨_, _, _, split_of_getElem? (List.getElem?_eq_getElem hn), by simp; omega⟩
  obtain ⟨c, d, hc, hd', hframes, hawaiting⟩ := course_of_append hv
  rw [← hlength] at hd
  have hm := (metered_of_first hv hlength.le hd).trans hc
  by_cases ha : c.awaiting = none
  · exact ⟨_, Course.metered_last hm ha (by omega)⟩
  · rw [Course.steps_cons] at hd'
    obtain ⟨q, hq, -⟩ := bind_eq_ok.mp hd'
    have hshallow := nesting_lt_of_call (hawaiting.mp (Option.isSome_iff_ne_none.mpr ha)) hd
    rw [← hframes] at hshallow
    cases bs with
    | nil =>
      -- An expression does not end with the parenthesis of a call.
      have hsent := sentence_of_evaluateTokens hv
      rw [Outline.sentence_iff] at hsent
      have hopen := (Outline.not_accepting_of_open hsent).2
      rw [(Course.step_parenthesis ha hq).1] at hopen
      cases hopen
    | cons u cs => exact ⟨_, Course.metered_lastCall hm ha hshallow hq (by omega)⟩

end Successful

section Raised

variable {env : Environment} {limits' : Limits} {ts : List Token} {v : Value} {e : Fault}

theorem agrees_setLimits (env : Environment) (limits' : Limits) (ts : List Token) :
    Agrees env (env.setLimits limits') ts :=
  ⟨fun _ _ _ => rfl, fun _ _ _ _ => rfl, fun _ _ _ => Environment.sameRule_of_get?_eq rfl⟩

/-- Limits bound the course and are no part of it. -/
theorem metered_setLimits (limits limits' : Limits) :
    Course.start.metered limits env 0 ts =
      Course.start.metered limits (env.setLimits limits') 0 ts :=
  Course.alike_start.metered_eq (agrees_setLimits env limits' ts)

theorem evaluateTokens_setLimits (hts : ts ≠ []) (h : InTime (env.setLimits limits') ts) :
    evaluateTokens (env.setLimits limits') ts =
      Course.start.metered limits' env 0 ts >>= fun c => c.finish env (ts.getLast hts) := by
  have ha := agrees_setLimits env limits' ts
  have hstart : Course.start.Alike env (env.setLimits limits') := Course.alike_start
  have hm : Course.start.metered limits' env 0 ts =
      Course.start.metered (env.setLimits limits').limits (env.setLimits limits') 0 ts :=
    metered_setLimits limits' limits'
  rw [evaluateTokens_metered hts h, ← hm]
  exact bind_congr fun c hc => ((hstart.metered ha hc).finish_eq _).symm

theorem evaluateTokens_of_metered (hts : ts ≠ []) (h : InTime env ts)
    (hm : Course.start.metered env.limits (env.setLimits limits') 0 ts = .error e) :
    evaluateTokens env ts = .error e := by
  rw [evaluateTokens_metered hts h, metered_setLimits _ limits', hm]
  rfl

/-- Raised limits change nothing but what a limit has cut short. -/
theorem evaluateTokens_raise (hle : env.limits.Le limits') (h : InTime env ts)
    (h' : InTime (env.setLimits limits') ts) :
    evaluateTokens env ts = evaluateTokens (env.setLimits limits') ts ∨
      ∃ e, env.limits.Exceeded e ∧ evaluateTokens env ts = .error e := by
  by_cases hts : ts = []
  · subst hts
    exact .inl rfl
  · rw [evaluateTokens_metered hts h, evaluateTokens_setLimits hts h']
    rcases Course.metered_raise hle with heq | ⟨e, he, hm⟩
    · exact .inl (by rw [heq])
    · exact .inr ⟨e, he, by rw [hm]; rfl⟩

/-- Raised limits change nothing where there are few tokens and never many brackets. -/
theorem evaluateTokens_of_shallow (hle : env.limits.Le limits') (h : InTime env ts)
    (h' : InTime (env.setLimits limits') ts) (hs : ts.length ≤ env.limits.steps)
    (hd : ∀ as bs r, ts = as ++ bs → Run.start.steps (env.setLimits limits') as = .ok r →
      r.yard.frames.length ≤ env.limits.depth) :
    evaluateTokens env ts = evaluateTokens (env.setLimits limits') ts := by
  by_cases hts : ts = []
  · subst hts
    rfl
  · rw [evaluateTokens_metered hts h, evaluateTokens_setLimits hts h']
    congr 1
    refine Course.metered_of_shallow hle (by omega) fun as bs d hsplit hd' => ?_
    have hrun : (Run.start.steps (env.setLimits limits') as).map Run.course =
        Course.start.metered limits' (env.setLimits limits') 0 as := by
      refine Run.steps_metered fun as' t bs' r has => h' as' t (bs' ++ bs) r ?_
      rw [hsplit, has]
      simp
    rw [← metered_setLimits, hd'] at hrun
    obtain ⟨r, hr, rfl⟩ := map_eq_ok.mp hrun
    exact hd as bs r hsplit hr

theorem evaluateTokens_of_maxNesting_le (hle : env.limits.Le limits') (h : InTime env ts)
    (h' : InTime (env.setLimits limits') ts) (hs : ts.length ≤ env.limits.steps)
    (hd : maxNesting ts ≤ env.limits.depth) :
    evaluateTokens env ts = evaluateTokens (env.setLimits limits') ts := by
  refine evaluateTokens_of_shallow hle h h' hs fun as bs r hsplit hr => ?_
  rw [(Run.length_frames hr).1]
  rw [hsplit] at hd
  exact (nesting_le_max as bs).trans hd

/-- The first bracket that is one too many is named, unless there are too many tokens before. -/
theorem evaluateTokens_tooDeep {i : Nat} {t : Token} (h : InTime env ts)
    (hv : evaluateTokens (env.setLimits limits') ts = .ok v) (hi : i < env.limits.steps)
    (ht : ts[i]? = some t) (hd : DeeperAt env.limits.depth ts i)
    (hfirst : ∀ j < i, ¬ DeeperAt env.limits.depth ts j) :
    evaluateTokens env ts =
      .error (.tooDeep env.limits.depth (nesting (ts.take i) + 1) t.span) := by
  have hlength : (ts.take i).length = i := by
    have hlt := (List.getElem?_eq_some_iff.mp ht).1
    rw [List.length_take]
    omega
  have hsplit := split_of_getElem? ht
  generalize ts.take i = as at *
  generalize ts.drop (i + 1) = bs at *
  subst hsplit hlength
  exact evaluateTokens_of_metered (by simp) h (metered_tooDeep hv hi hd hfirst)

theorem evaluateTokens_tooManySteps (h : InTime env ts)
    (hv : evaluateTokens (env.setLimits limits') ts = .ok v) (hs : env.limits.steps < ts.length)
    (hd : ∀ j < env.limits.steps, ¬ DeeperAt env.limits.depth ts j) :
    ∃ k, evaluateTokens env ts = .error (.tooManySteps env.limits.steps k) := by
  have hts : ts ≠ [] := List.ne_nil_of_length_pos (Nat.zero_lt_of_lt hs)
  obtain ⟨k, hk⟩ := metered_tooManySteps hv hs hd
  exact ⟨k, evaluateTokens_of_metered hts h hk⟩

/-- A limit that the tokens exceed is met. -/
theorem exceeded_of_lt (h : InTime env ts)
    (hv : evaluateTokens (env.setLimits limits') ts = .ok v)
    (hn : env.limits.steps < ts.length ∨ env.limits.depth < maxNesting ts) :
    ∃ e, env.limits.Exceeded e ∧ evaluateTokens env ts = .error e := by
  classical
  by_cases hd : ∃ i, i < env.limits.steps ∧ DeeperAt env.limits.depth ts i
  · have hi := Nat.find_spec hd
    obtain ⟨t, ht, -⟩ := hi.2
    refine ⟨_, .depth _ _, evaluateTokens_tooDeep h hv hi.1 ht hi.2 fun j hj hdeeper => ?_⟩
    exact Nat.find_min hd hj ⟨hj.trans hi.1, hdeeper⟩
  · have hnot : ∀ j < env.limits.steps, ¬ DeeperAt env.limits.depth ts j :=
      fun j hj hdeeper => hd ⟨j, hj, hdeeper⟩
    have hs : env.limits.steps < ts.length := by
      refine hn.elim id fun hmax => ?_
      -- The bracket that is one too many stands behind as many tokens as there may be.
      obtain ⟨i, hi⟩ := (sentence_of_evaluateTokens hv).lt_maxNesting_iff.mp hmax
      have hge : ¬ i < env.limits.steps := fun hlt => hnot i hlt hi
      obtain ⟨t, ht, -⟩ := hi
      have hlt := (List.getElem?_eq_some_iff.mp ht).1
      omega
    obtain ⟨k, hk⟩ := evaluateTokens_tooManySteps h hv hs hnot
    exact ⟨_, .steps k, hk⟩

end Raised

section Sources

variable {env : Environment} {ts : List Token} {e : Fault}

/-- A fault of the length of a text. -/
def Fault.IsTooLong (e : Fault) : Prop :=
  ∃ limit actual suggestion, e = .limitExceeded "max_expression_bytes" limit actual suggestion

theorem Run.Limited.not_isTooLong {limits : Limits} {r : Run} {t : Token}
    (h : r.Limited limits t e) : ¬ e.IsTooLong := by
  rintro ⟨limit, actual, suggestion, rfl⟩
  cases h with
  | budget _ h =>
    simp only [checkBudget] at h
    split at h
    · simp [Fault.tooManySteps] at h
    · split at h <;> simp [Fault.outOfTime] at h
  | bracket _ _ _ _ h | call _ _ _ h =>
    unfold checkDepth at h
    split at h <;> simp [Fault.tooDeep] at h

theorem Fault.IsTooLong.syntaxKind? (h : e.IsTooLong) : e.syntaxKind? = none := by
  obtain ⟨_, _, _, rfl⟩ := h
  rfl

theorem Environment.Originates.hosted (h : env.Originates e) (he : e.IsTooLong) :
    env.Hosted e := by
  obtain ⟨_, _, _, rfl⟩ := he
  exact h.resolve_left (by simp [Fault.isRuntime, Fault.runtimeKind?])

/-- The length of a text is nothing that tokens could exceed. -/
theorem hosted_of_isTooLong (h : evaluateTokens env ts = .error e) (he : e.IsTooLong) :
    env.Hosted e := by
  by_cases hi : ∀ d, ¬ Interrupted env ts d
  · have hnot : ∀ k, ¬ ReportsSyntax env ts k := by
      rintro k ⟨d, hd, hk⟩
      cases h.symm.trans hd
      rw [he.syntaxKind?] at hk
      cases hk
    have hs := not_not.mp (mt (verdict hi).reports_iff.mp fun ⟨k, hk⟩ => hnot k hk)
    obtain ⟨v, hv⟩ := (verdict hi).sentence_iff.mp hs
    cases h.symm.trans hv
  · push Not at hi
    obtain ⟨d, hd⟩ := hi
    cases h.symm.trans (evaluateTokens_of_interrupted hd)
    cases hd with
    | token _ _ h =>
      cases h with
      | limit h => exact absurd he h.not_isTooLong
      | evaluation _ _ h => exact h.originates.hosted he
    | finish _ _ _ _ _ _ ho => exact ho.originates.hosted he

theorem Scan.isSyntax_of_run {σ : Type} {ask : Interceptor σ} {memory : σ} {emitted : List Token}
    {p : Place} {cs : List Char} (h : (run ask memory emitted p cs).1 = .error e) :
    e.isSyntax = true := by
  fun_induction run ask memory emitted p cs with
  | case1 | case6 => cases h
  | case2 | case3 =>
    cases h
    rfl
  | case4 | case5 | case7 => simp_all

theorem not_isTooLong_of_tokenize {source : String} (h : tokenize source = .error e) :
    ¬ e.IsTooLong := by
  intro he
  have hs := Scan.isSyntax_of_run (map_eq_error.mp h)
  simp [Fault.isSyntax, he.syntaxKind?] at hs

end Sources

namespace Environment

variable {env : Environment} {limits' : Limits} {source : String}

theorem evaluate_of_le (h : source.utf8ByteSize ≤ env.limits.bytes) :
    env.evaluate source = tokenize source >>= fun stream => evaluateTokens env stream.tokens :=
  if_neg (Nat.not_lt.mpr h)

theorem isTooLong_evaluate_iff (hhost : ∀ e, env.Hosted e → ¬ e.IsTooLong) :
    (∃ e, env.evaluate source = .error e ∧ e.IsTooLong) ↔
      env.limits.bytes < source.utf8ByteSize := by
  constructor
  · rintro ⟨e, h, he⟩
    by_contra hlt
    rw [evaluate_of_le (Nat.not_lt.mp hlt)] at h
    rcases bind_eq_error.mp h with h | ⟨stream, -, h⟩
    · exact not_isTooLong_of_tokenize h he
    · exact hhost e (hosted_of_isTooLong h he) he
  · intro hlt
    exact ⟨_, if_pos hlt, _, _, _, rfl⟩

/-- Raised limits change nothing but what a limit has cut short. -/
theorem evaluate_raise (hle : env.limits.Le limits') (hbytes : env.limits.bytes ≤ limits'.bytes)
    (ht : ∀ stream, tokenize source = .ok stream →
      InTime env stream.tokens ∧ InTime (env.setLimits limits') stream.tokens)
    (hlong : ¬ env.limits.bytes < source.utf8ByteSize)
    (hexceeded : ∀ e, env.limits.Exceeded e → env.evaluate source ≠ .error e) :
    (env.setLimits limits').evaluate source = env.evaluate source := by
  have hsource : source.utf8ByteSize ≤ env.limits.bytes := Nat.not_lt.mp hlong
  have heq := evaluate_of_le hsource
  rw [heq] at hexceeded ⊢
  rw [evaluate_of_le (hsource.trans hbytes)]
  refine bind_congr fun stream hstream => ?_
  obtain ⟨h, h'⟩ := ht stream hstream
  refine ((evaluateTokens_raise hle h h').resolve_right ?_).symm
  rintro ⟨e, he, hcut⟩
  refine hexceeded e he ?_
  rw [hstream]
  exact hcut

end Environment

/-- Limits cut evaluations short and do nothing else. Let time not run out, and let an environment
have other limits that are no lower. Then tokens have the result that they have under those, or
exceed a limit; the result is the same if there are few tokens and never many brackets; and where
it is a value, a limit is exceeded exactly if there are too many tokens or too many brackets at
once, and the fault names what comes first among the tokens. So a result that is not the fault of
a limit stays when the limits are raised. An expression besides must not be too long, and nothing
else is a fault of its length. -/
theorem evaluateTokens_truncated {env : Environment} {limits' : Limits}
    (hle : env.limits.Le limits') :
    (∀ ts, InTime env ts → InTime (env.setLimits limits') ts →
      (evaluateTokens env ts = evaluateTokens (env.setLimits limits') ts ∨
        ∃ e, env.limits.Exceeded e ∧ evaluateTokens env ts = .error e) ∧
      (ts.length ≤ env.limits.steps →
        (∀ as bs r, ts = as ++ bs → Run.start.steps (env.setLimits limits') as = .ok r →
          r.yard.frames.length ≤ env.limits.depth) →
        evaluateTokens env ts = evaluateTokens (env.setLimits limits') ts) ∧
      (∀ v, evaluateTokens (env.setLimits limits') ts = .ok v →
        ((∃ name limit actual suggestion,
            evaluateTokens env ts = .error (.limitExceeded name limit actual suggestion)) ↔
          env.limits.steps < ts.length ∨ env.limits.depth < maxNesting ts) ∧
        (env.limits.steps < ts.length →
          (∀ j < env.limits.steps, ¬ DeeperAt env.limits.depth ts j) →
          ∃ k, evaluateTokens env ts = .error (.tooManySteps env.limits.steps k)) ∧
        (∀ i t, i < env.limits.steps → ts[i]? = some t → DeeperAt env.limits.depth ts i →
          (∀ j < i, ¬ DeeperAt env.limits.depth ts j) →
          evaluateTokens env ts =
            .error (.tooDeep env.limits.depth (nesting (ts.take i) + 1) t.span))) ∧
      ((∀ e, env.limits.Exceeded e → evaluateTokens env ts ≠ .error e) →
        evaluateTokens (env.setLimits limits') ts = evaluateTokens env ts)) ∧
    ∀ source : String,
      (env.limits.bytes < source.utf8ByteSize →
        env.evaluate source = .error (.tooLong env.limits.bytes source.utf8ByteSize)) ∧
      (source.utf8ByteSize ≤ env.limits.bytes →
        env.evaluate source =
          tokenize source >>= fun stream => evaluateTokens env stream.tokens) ∧
      ((∀ e, env.Hosted e → ¬ e.IsTooLong) →
        ((∃ e, env.evaluate source = .error e ∧ e.IsTooLong) ↔
          env.limits.bytes < source.utf8ByteSize)) ∧
      (env.limits.bytes ≤ limits'.bytes →
        (∀ stream, tokenize source = .ok stream →
          InTime env stream.tokens ∧ InTime (env.setLimits limits') stream.tokens) →
        ¬ env.limits.bytes < source.utf8ByteSize →
        (∀ e, env.limits.Exceeded e → env.evaluate source ≠ .error e) →
        (env.setLimits limits').evaluate source = env.evaluate source) := by
  refine ⟨fun ts h h' =>
      ⟨evaluateTokens_raise hle h h', evaluateTokens_of_shallow hle h h', ?_, ?_⟩,
    fun source => ⟨fun hlt => if_pos hlt, Environment.evaluate_of_le,
      Environment.isTooLong_evaluate_iff, Environment.evaluate_raise hle⟩⟩
  · intro v hv
    refine ⟨⟨?_, fun hn => ?_⟩, evaluateTokens_tooManySteps h hv,
      fun i t hi ht hd hfirst => evaluateTokens_tooDeep h hv hi ht hd hfirst⟩
    · rintro ⟨name, limit, actual, suggestion, hlimit⟩
      by_contra hn
      rw [not_or, Nat.not_lt, Nat.not_lt] at hn
      have heq := evaluateTokens_of_maxNesting_le hle h h' hn.1 hn.2
      rw [hlimit, hv] at heq
      cases heq
    · obtain ⟨e, he, hcut⟩ := exceeded_of_lt h hv hn
      cases he with
      | steps k => exact ⟨_, _, _, _, hcut⟩
      | depth k s => exact ⟨_, _, _, _, hcut⟩
  · intro hnot
    refine ((evaluateTokens_raise hle h h').resolve_right ?_).symm
    rintro ⟨e, he, hcut⟩
    exact hnot e he hcut

/-- An environment that allows four bytes, four tokens and one bracket. -/
def oneBracket : Environment := Environment.empty.setLimits ⟨4, 1, 4, 1000⟩

/-- An empty array in an array. -/
def nestedArray : List Token :=
  [.bare .arrayOpen default, .bare .arrayOpen default, .bare .arrayClose default,
    .bare .arrayClose default]

theorem evaluateTokens_truncated_nestedArray :
    oneBracket.limits.Le .unlimited ∧ InTime oneBracket nestedArray ∧
      InTime (oneBracket.setLimits .unlimited) nestedArray ∧
      (∃ v, evaluateTokens (oneBracket.setLimits .unlimited) nestedArray = .ok v) ∧
      evaluateTokens oneBracket nestedArray = .error (.tooDeep 1 2 default) ∧
      (∀ e, oneBracket.Hosted e → ¬ e.IsTooLong) ∧
      ¬ ∃ e, oneBracket.evaluate "[[]]" = .error e ∧ e.IsTooLong := by
  have hle : oneBracket.limits.Le .unlimited := ⟨by decide, by decide⟩
  have ht : InTime oneBracket nestedArray := inTime_of_callDuration (fun _ => rfl) _
  have ht' : InTime (oneBracket.setLimits .unlimited) nestedArray :=
    inTime_of_callDuration (fun _ => rfl) _
  obtain ⟨v, hv⟩ : ∃ v, evaluateTokens (oneBracket.setLimits .unlimited) nestedArray = .ok v :=
    ⟨_, rfl⟩
  have hhost : ∀ e, oneBracket.Hosted e → ¬ e.IsTooLong := fun e h =>
    absurd h (Environment.not_hosted (fun _ => rfl) (fun _ => rfl) e)
  have hdeeper : DeeperAt 1 nestedArray 1 := ⟨_, rfl, .inl rfl, by decide⟩
  have hfirst : ∀ j < 1, ¬ DeeperAt 1 nestedArray j := by
    rintro j hj ⟨t, -, -, hd⟩
    obtain rfl : j = 0 := by omega
    exact absurd hd (by decide)
  have h := evaluateTokens_truncated hle
  have hcut := ((h.1 nestedArray ht ht').2.2.1 v hv).2.2 1 _ (by decide) rfl hdeeper hfirst
  exact ⟨hle, ht, ht', ⟨v, hv⟩, hcut, hhost,
    mt ((h.2 "[[]]").2.2.1 hhost).mp (by decide)⟩

end Formula
