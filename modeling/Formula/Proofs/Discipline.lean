import Formula.Proofs.Step

/-! The three stacks of a run agree with one another after every token: markers stand for open
brackets, the base of a bracket counts the infix operators below its marker, and there is one
value for each infix operator, and one more behind an operand. -/
namespace Formula
open Stacked

namespace Yard

/-- What the operator stack says about the other two. -/
structure Disciplined (y : Yard) : Prop where
  markers : y.operators.count .marker = y.frames.length
  bases : y.frames.map Frame.base = floors y.operators
  values : y.values.length = infixCount y.operators + if y.expectsOperand then 0 else 1

variable {env : Environment} {y z : Yard}

theorem disciplined_empty : empty.Disciplined := ⟨rfl, rfl, rfl⟩

namespace Disciplined

theorem floor_eq (h : y.Disciplined) : y.floor = ground y.operators := by
  rw [floor, ground, ← h.bases, List.head?_map]

/-- Operators that leave the innermost bracket take their values with them. -/
theorem drop {seg ops : List Stacked} {vs : List Value} (h : y.Disciplined)
    (hs : y.operators = seg ++ ops) (hm : Stacked.marker ∉ seg)
    (hv : y.values.length = vs.length + infixCount seg) :
    Disciplined { y with operators := ops, values := vs } := by
  obtain ⟨h₁, h₂, h₃⟩ := h
  rw [hs, List.count_append, List.count_eq_zero_of_not_mem hm, Nat.zero_add] at h₁
  rw [hs, floors_append hm] at h₂
  rw [hs, infixCount_append] at h₃
  exact ⟨h₁, h₂, by simp only; omega⟩

theorem reduce (h : y.Disciplined) (hz : y.reduce env = .ok z) : z.Disciplined := by
  obtain ⟨seg, vs, hs, hm, hv, he, -⟩ := reduce_eq_ok hz
  rw [he]
  exact h.drop hs hm hv

/-- On top of the operators of a reduced bracket lies its own marker. -/
theorem marker_on_top {f : Frame} {fs : List Frame} (h : y.Disciplined)
    (hr : y.Reduced) (hf : y.frames = f :: fs) :
    ∃ ops, y.operators = .marker :: ops ∧ f.base = infixCount ops ∧
      fs.map Frame.base = floors ops := by
  obtain ⟨h₁, h₂, -⟩ := h
  cases ho : y.operators with
  | nil => simp [ho, hf] at h₁
  | cons o ops =>
    cases o with
    | operator op s => exact absurd ho (hr op s ops)
    | marker =>
      rw [hf, ho] at h₂
      simp only [List.map_cons, floors, List.cons.injEq] at h₂
      exact ⟨ops, rfl, h₂.1, h₂.2⟩

/-- A reduced bracket behind an operand holds one value. -/
theorem single {f : Frame} {fs : List Frame} (h : y.Disciplined)
    (hr : y.Reduced) (hf : y.frames = f :: fs) (he : y.expectsOperand = false) :
    ∃ v vs, y.values = v :: vs ∧ vs.length = f.base := by
  obtain ⟨ops, ho, hb, -⟩ := h.marker_on_top hr hf
  have hl := h.values
  rw [ho, infixCount_marker, he, ← hb] at hl
  obtain ⟨v, vs, hv⟩ := List.exists_cons_of_length_pos (l := y.values) (by simp at hl; omega)
  exact ⟨v, vs, hv, by rw [hv] at hl; simpa using hl⟩

/-- An operand where one is expected. -/
theorem operand (h : y.Disciplined) (he : y.expectsOperand = true) (v : Value) :
    (Run.operand v y).Disciplined := by
  refine ⟨h.markers, h.bases, ?_⟩
  have hl := h.values
  simp [he] at hl
  simp [Run.operand, pushValue, hl]

theorem openFrame (h : y.Disciplined) (he : y.expectsOperand = true) (c : Collected) (s : Span) :
    Disciplined { y.openFrame c s with expectsOperand := true } := by
  have hl := h.values
  simp [he] at hl
  refine ⟨?_, ?_, ?_⟩
  · simp [Yard.openFrame, h.markers]
  · simp [Yard.openFrame, floors, h.bases, hl]
  · simp [Yard.openFrame, hl]

theorem pushPrefix (h : y.Disciplined) {op : Kind} (hop : op.isPrefixOperator = true) (s : Span) :
    (y.pushPrefix op s).Disciplined := by
  refine ⟨?_, h.bases, ?_⟩
  · simpa [Yard.pushPrefix] using h.markers
  · change y.values.length = infixCount (.operator op s :: y.operators) +
      if y.expectsOperand then 0 else 1
    rw [infixCount_operator, hop]
    exact h.values

theorem pushBinary (h : y.Disciplined) {op : Kind} (hop : op.isPrefixOperator = false) {s : Span}
    (he : y.expectsOperand = false) (hz : y.pushBinary env op s = .ok z) :
    Disciplined { z with expectsOperand := true } := by
  obtain ⟨seg, ops, vs, hs, hm, hv, rfl⟩ := pushBinary_eq_ok hz
  obtain ⟨h₁, h₂, h₃⟩ := h.drop hs hm hv
  refine ⟨?_, h₂, ?_⟩
  · simpa using h₁
  · simpa [he, hop] using h₃

/-- A separator hands the value over the marker to the bracket and leaves the rest. -/
theorem separated {k : Kind} (h : y.Disciplined) (hz : Run.Separated env y k z) :
    z.Disciplined ∧ z.frames.length = y.frames.length := by
  obtain ⟨he, w, f, fs, v, vs, c, hw, hf, hv, hl, -, rfl⟩ := hz
  obtain ⟨hf', he'⟩ := frames_reduce hw
  obtain ⟨h₁, h₂, h₃⟩ := h.reduce hw
  rw [hf', hf] at h₁ h₂
  rw [hv, he', he] at h₃
  refine ⟨⟨h₁, h₂, ?_⟩, by simp [hf]⟩
  simpa using h₃

/-- A reduced bracket closes: its frame goes, and its own marker. -/
theorem closeFrame {f : Frame} {fs : List Frame} {vs : List Value} (h : y.Disciplined)
    (hf : y.frames = f :: fs) (hr : y.Reduced) (hl : vs.length = f.base) (v : Value)
    (hz : z = Run.operand v ({ y with values := vs } : Yard).closeFrame.2) :
    z.Disciplined ∧ y.frames = f :: z.frames ∧ y.operators = .marker :: z.operators ∧
      f.base = infixCount z.operators := by
  obtain ⟨ops, ho, hb, hfs⟩ := h.marker_on_top hr hf
  have h₁ := h.markers
  rw [ho, hf] at h₁
  have hz' : z = ⟨ops, v :: vs, fs, false⟩ := by
    simp [hz, Run.operand, Yard.closeFrame, pushValue, ho, hf]
  subst hz'
  refine ⟨⟨?_, hfs, ?_⟩, hf, ho, hb⟩
  · simpa using h₁
  · simp [hl, hb]

end Disciplined

/-- Wherever the loop comes to, the operator on top finds its operands. -/
def Fed (env : Environment) (y : Yard) : Prop :=
  ∀ op s ops vs,
    Relation.ReflTransGen (Applies env y.floor) (y.operators, y.values)
        (.operator op s :: ops, vs) →
      ∃ v ws, popOperand y.floor s vs = .ok (v, ws) ∧
        (op.isPrefixOperator = false → ∃ u us, popOperand y.floor s ws = .ok (u, us))

/-- Once its operators are applied, the innermost bracket holds the one value that is taken. -/
def Single (env : Environment) (y : Yard) : Prop :=
  ∀ z f fs s, y.reduce env = .ok z → z.frames = f :: fs →
    ∃ v w, z.takeSingle f.base s = .ok (v, w)

/-- The balance that the loop keeps between two operators. -/
theorem balance_of_applies {floor : Nat} {a b : List Stacked × List Value}
    (h : Relation.ReflTransGen (Applies env floor) a b)
    (ha : a.2.length = infixCount a.1 + 1 ∧ ground a.1 = floor) :
    b.2.length = infixCount b.1 + 1 ∧ ground b.1 = floor := by
  induction h with
  | refl => exact ha
  | tail _ hstep ih =>
    obtain ⟨hv⟩ := hstep
    rename_i op s ops vs ws
    have hl := (performs_of_applyOperator hv).length.1
    simp only [infixCount_operator, ground_operator] at ih
    exact ⟨by simp only; omega, ih.2⟩

/-- Enough values lie above the floor for the operator on top. -/
theorem room_of_balance {floor : Nat} {op : Kind} {s : Span} {ops : List Stacked} {vs : List Value}
    (hl : vs.length = infixCount (.operator op s :: ops) + 1)
    (hg : ground (.operator op s :: ops) = floor) :
    floor + (if op.isPrefixOperator then 0 else 1) < vs.length := by
  have hle := ground_le ops
  simp only [infixCount_operator, ground_operator] at hl hg
  omega

/-- The loop comes to the operator, and its rule fails. -/
def Halts (env : Environment) (y : Yard) (op : Kind) (s : Span) (d : Fault) : Prop :=
  ∃ ops vs,
    Relation.ReflTransGen (Applies env y.floor) (y.operators, y.values)
        (.operator op s :: ops, vs) ∧ env.Fails op vs d

theorem Halts.operatorFault {op : Kind} {s : Span} {d : Fault} (h : y.Halts env op s d) :
    env.OperatorFault (d.orSpan s) := by
  obtain ⟨ops, vs, -, hfails⟩ := h
  exact hfails.operatorFault s

theorem suffix_of_applies {floor : Nat} {a b : List Stacked × List Value}
    (h : Relation.ReflTransGen (Applies env floor) a b) : b.1 <:+ a.1 := by
  obtain ⟨seg, hseg, -⟩ := segment_of_applies h
  exact ⟨seg, hseg.symm⟩

/-- The operator that the loop comes to has been waiting. -/
theorem Halts.mem {op : Kind} {s : Span} {d : Fault} (h : y.Halts env op s d) :
    .operator op s ∈ y.operators := by
  obtain ⟨ops, vs, hreach, -⟩ := h
  exact (suffix_of_applies hreach).subset List.mem_cons_self

/-- With that balance the loop fails only where the rule of an operator does. -/
theorem applyWhile_eq_error {floor : Nat} {ready : Kind → Bool} {ops : List Stacked}
    {vs : List Value} {d : Halted} (hl : vs.length = infixCount ops + 1) (hg : ground ops = floor)
    (h : applyWhile env floor ready ops vs = .error d) :
    ∃ op s ops' vs' e,
      Relation.ReflTransGen (Applies env floor) (ops, vs) (.operator op s :: ops', vs') ∧
        env.Fails op vs' e ∧ d.fault = e.orSpan s := by
  obtain ⟨op, s, vs', happlies, hbreaks⟩ := breaks_of_applyWhile h
  obtain ⟨hl', hg'⟩ := balance_of_applies happlies ⟨hl, hg⟩
  obtain ⟨e, hfails, hfault⟩ := hbreaks.fails (room_of_balance hl' hg')
  exact ⟨op, s, d.operators, vs', e, happlies, hfails, hfault⟩

theorem Disciplined.balance (h : y.Disciplined) (he : y.expectsOperand = false) :
    y.values.length = infixCount y.operators + 1 ∧ ground y.operators = y.floor :=
  ⟨by simpa [he] using h.values, h.floor_eq.symm⟩

theorem Disciplined.halts {ready : Kind → Bool} {h : Halted} (hd : y.Disciplined)
    (hy : y.expectsOperand = false)
    (hz : applyWhile env y.floor ready y.operators y.values = .error h) :
    ∃ op s d, y.Halts env op s d ∧ h.fault = d.orSpan s := by
  obtain ⟨hl, hg⟩ := hd.balance hy
  obtain ⟨op, s, ops, vs, d, hreach, hfails, hfault⟩ := applyWhile_eq_error hl hg hz
  exact ⟨op, s, d, ⟨ops, vs, hreach, hfails⟩, hfault⟩

/-- Where a bracket cannot be reduced, one of its operators fails. -/
theorem Disciplined.halts_of_reduce {h : Halted} (hd : y.Disciplined)
    (hy : y.expectsOperand = false) (hz : y.reduce env = .error h) :
    ∃ op s d, y.Halts env op s d ∧ h.fault = d.orSpan s := hd.halts hy (map_eq_error.mp hz)

theorem Disciplined.halts_of_pushBinary {h : Halted} {op : Kind} {s : Span} (hd : y.Disciplined)
    (hy : y.expectsOperand = false) (hz : y.pushBinary env op s = .error h) :
    ∃ op' s' d, y.Halts env op' s' d ∧ h.fault = d.orSpan s' := hd.halts hy (map_eq_error.mp hz)

theorem Disciplined.operatorFault_of_reduce {h : Halted} (hd : y.Disciplined)
    (hy : y.expectsOperand = false) (hz : y.reduce env = .error h) :
    env.OperatorFault h.fault := by
  obtain ⟨op, s, d, hhalts, hfault⟩ := hd.halts_of_reduce hy hz
  rw [hfault]
  exact hhalts.operatorFault

theorem Disciplined.operatorFault_of_pushBinary {h : Halted} {op : Kind} {s : Span}
    (hd : y.Disciplined) (hy : y.expectsOperand = false)
    (hz : y.pushBinary env op s = .error h) : env.OperatorFault h.fault := by
  obtain ⟨op', s', d, hhalts, hfault⟩ := hd.halts_of_pushBinary hy hz
  rw [hfault]
  exact hhalts.operatorFault

theorem Disciplined.fed (h : y.Disciplined) (he : y.expectsOperand = false) : y.Fed env := by
  intro op s ops vs hr
  obtain ⟨hl, hg⟩ := balance_of_applies hr (h.balance he)
  have hroom := room_of_balance hl hg
  obtain ⟨v, ws, rfl⟩ := List.exists_cons_of_length_pos (Nat.zero_lt_of_lt hroom)
  simp only [List.length_cons] at hroom
  refine ⟨v, ws, popOperand_cons (by omega) v, ?_⟩
  intro hop
  simp only [hop, Bool.false_eq_true, ↓reduceIte] at hroom
  obtain ⟨u, us, rfl⟩ := List.exists_cons_of_length_pos (l := ws) (by omega)
  simp only [List.length_cons] at hroom
  exact ⟨u, us, popOperand_cons (by omega) u⟩

theorem Disciplined.single_taken (h : y.Disciplined) (he : y.expectsOperand = false) :
    y.Single env := by
  intro z f fs s hz hf
  obtain ⟨_, _, _, _, _, _, hr⟩ := reduce_eq_ok hz
  obtain ⟨v, vs, hv, hl⟩ := (h.reduce hz).single hr hf ((frames_reduce hz).2.trans he)
  exact ⟨v, { z with values := vs }, by simp [Yard.takeSingle, hv, hl]⟩

/-- `z` is `y` without its innermost bracket: all operators down to its own marker are gone. -/
def Closes (y z : Yard) : Prop :=
  ∃ f seg, y.frames = f :: z.frames ∧ y.operators = seg ++ .marker :: z.operators ∧
    Stacked.marker ∉ seg ∧ f.base = infixCount z.operators

theorem Disciplined.onClose {t : Token} {time : Nat} (h : y.Disciplined)
    (hz : Run.onClose env y t = .ok (z, time)) : z.Disciplined ∧ y.Closes z := by
  obtain ⟨f, fs, hf, -, ⟨hb, v, -, hz⟩ | ⟨-, he, w, u, vs, v, hw, hu, hl, -, hz⟩⟩ :=
    Run.onClose_eq_ok hz
  · simp only [Run.isBlank, Bool.and_eq_true, beq_iff_eq] at hb
    have hr : y.Reduced := by
      intro op s ops ho
      simp [ho] at hb
    obtain ⟨hd, hf', ho, hbase⟩ := h.closeFrame hf hr hb.1.2 v hz
    exact ⟨hd, f, [], hf', ho, by simp, hbase⟩
  · obtain ⟨seg, ws, hs, hm, -, -, hr⟩ := reduce_eq_ok hw
    have hfw := (frames_reduce hw).1
    obtain ⟨hd, hf', ho, hbase⟩ := (h.reduce hw).closeFrame (hfw.trans hf) hr hl v hz
    exact ⟨hd, f, seg, hfw.symm.trans hf', by rw [hs, ho], hm, hbase⟩

end Yard

namespace Run

variable {env : Environment} {r r' : Run} {t : Token}

/-- What every run keeps: its stacks agree, its brackets are not too many, and a call waits for
its parenthesis only where an operand is expected. -/
structure Steady (limits : Limits) (r : Run) : Prop where
  disciplined : r.yard.Disciplined
  depth : r.yard.frames.length ≤ limits.depth
  awaiting : ∀ call, r.awaiting = some call → r.yard.expectsOperand = true

theorem steady_start (limits : Limits) : start.Steady limits :=
  ⟨Yard.disciplined_empty, Nat.zero_le _, by rintro _ ⟨⟩⟩

theorem Steady.onOpen {y z : Yard} {limits : Limits} {c : Collected} (h : y.Disciplined)
    (hz : onOpen limits y t c = .ok z) : (r.next z).Steady limits := by
  obtain ⟨he, hd, rfl⟩ := onOpen_eq_ok hz
  exact ⟨h.openFrame he c t.span, hd, by rintro _ ⟨⟩⟩

theorem Steady.process (h : r.Steady env.limits) (hp : process env r t = .ok r') :
    r'.Steady env.limits := by
  obtain ⟨hd, hl, -⟩ := h
  -- every class of tokens but calls ends with no call waiting
  have next : ∀ {y : Yard} {k : Nat}, y.Disciplined → y.frames.length ≤ r.yard.frames.length →
      Steady env.limits { r.next y with elapsed := k } :=
    fun hy hf => ⟨hy, Nat.le_trans hf hl, by rintro _ ⟨⟩⟩
  simp only [Run.process] at hp
  split at hp
  case h_1 | h_2 | h_3 =>
    obtain ⟨z, hz, rfl⟩ := map_eq_ok.mp hp
    obtain ⟨he, v, -, rfl⟩ := onValue_eq_ok hz
    exact next (hd.operand he v) (Nat.le_refl _)
  case h_4 =>
    obtain ⟨_, hz, rfl⟩ := map_eq_ok.mp hp
    exact ⟨hd, hl, fun _ _ => requireOperand_eq_ok.mp hz⟩
  case h_5 | h_6 =>
    obtain ⟨z, hz, rfl⟩ := map_eq_ok.mp hp
    exact Steady.onOpen hd hz
  case h_7 =>
    obtain ⟨z, hz, rfl⟩ := map_eq_ok.mp hp
    obtain ⟨hy, hf⟩ := hd.separated (onComma_eq_ok hz)
    exact next hy (Nat.le_of_eq hf)
  case h_8 =>
    obtain ⟨z, hz, rfl⟩ := map_eq_ok.mp hp
    obtain ⟨hy, hf⟩ := hd.separated (onArrow_eq_ok hz)
    exact next hy (Nat.le_of_eq hf)
  case h_9 | h_10 =>
    obtain ⟨⟨z, time⟩, hz, rfl⟩ := map_eq_ok.mp hp
    obtain ⟨hy, f, seg, hf, -⟩ := hd.onClose hz
    exact next hy (by simp [hf])
  case h_11 | h_12 | h_13 =>
    obtain ⟨z, hz, rfl⟩ := map_eq_ok.mp hp
    obtain ⟨he, rfl⟩ := onPrefix_eq_ok hz
    exact next (hd.pushPrefix (by simp_all [Kind.isPrefixOperator]) t.span) (Nat.le_refl _)
  case h_14 =>
    obtain ⟨z, hz, rfl⟩ := map_eq_ok.mp hp
    obtain ⟨he, w, hw, rfl⟩ := onInfix_eq_ok hz
    have hop : t.kind.isPrefixOperator = false := by
      unfold Kind.isPrefixOperator
      split <;> simp_all
    obtain ⟨_, _, _, _, _, _, hf⟩ := Yard.pushBinary_eq_ok hw
    exact next (hd.pushBinary hop he hw) (by simp [hf])

theorem Steady.step (h : r.Steady env.limits) (hs : r.step env t = .ok r') :
    r'.Steady env.limits := by
  simp only [Run.step] at hs
  split at hs
  · simp only [openCall] at hs
    split at hs
    · obtain ⟨z, hz, rfl⟩ := map_eq_ok.mp hs
      exact Steady.onOpen h.disciplined hz
    · cases hs
  · obtain ⟨_, -, hp⟩ := bind_eq_ok.mp hs
    exact h.process hp

theorem steps_cons {ts : List Token} :
    r.steps env (t :: ts) = r.step env t >>= fun r => r.steps env ts := rfl

theorem steps_append {as bs : List Token} :
    r.steps env (as ++ bs) = r.steps env as >>= fun r => r.steps env bs := List.foldlM_append

/-- What one token preserves, a whole run preserves. -/
theorem Steady.steps {ts : List Token} (h : r.Steady env.limits) (hs : r.steps env ts = .ok r') :
    r'.Steady env.limits := by
  induction ts generalizing r with
  | nil => cases hs; exact h
  | cons t ts ih =>
    rw [steps_cons] at hs
    obtain ⟨q, hq, hs⟩ := bind_eq_ok.mp hs
    exact ih (h.step hq) hs

end Run
end Formula
