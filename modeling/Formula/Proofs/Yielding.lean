import Formula.Proofs.Course
import Formula.Proofs.Step
import Formula.Proofs.Tree

/-! How waiting operators give way. Behind an operand, every token but a value first lets the
operators go whose right operand it ends. What the tokens of an expression do up to that point is
what its tree says. -/
namespace Formula

namespace Yard

/-- Applies the waiting operators whose right operand ends before an operator of this level. -/
def yield (env : Environment) (p : Nat) (y : Yard) : Except Fault Yard :=
  Run.settled <| (applyWhile env y.floor (fun w => decide (p < w.rightLevel)) y.operators
    y.values).map fun (ops, vs) => { y with operators := ops, values := vs }

/-- An infix operator waits for its right operand. -/
def pushInfix (op : Kind) (s : Span) (y : Yard) : Yard :=
  { y with operators := .operator op s :: y.operators, expectsOperand := true }

/-- No operator on top gives way to one of this level. -/
def Guarded (y : Yard) (p : Nat) : Prop :=
  ∀ w s ops, y.operators = .operator w s :: ops → w.rightLevel ≤ p

/-- An operand may begin, and all values of the bracket are there. -/
structure Waits (y : Yard) : Prop where
  expects : y.expectsOperand = true
  floor : y.floor ≤ y.values.length

variable {env : Environment} {y : Yard} {p : Nat} {op : Kind} {s : Span} {ops : List Stacked}

theorem Reduced.guarded (h : y.Reduced) (p : Nat) : y.Guarded p :=
  fun w s ops he => absurd he (h w s ops)

/-- To end the bracket, every operator gives way. -/
theorem settled_reduce (env : Environment) (y : Yard) :
    Run.settled (y.reduce env) = y.yield env 0 := by
  have h : (fun _ => true) = fun w : Kind => decide (0 < w.rightLevel) := by
    funext w
    exact (decide_eq_true w.rightLevel_pos).symm
  unfold reduce yield
  rw [h]

theorem frames_yield {z : Yard} (h : y.yield env p = .ok z) : z.frames = y.frames := by
  obtain ⟨q, -, rfl⟩ := map_eq_ok.mp (Run.settled_eq_ok.mp h)
  rfl

theorem settled_pushBinary (env : Environment) (h : op.isInfixOperator = true) (s : Span)
    (y : Yard) :
    Run.settled (y.pushBinary env op s) =
      (y.yield env op.level).map fun z =>
        { z with operators := .operator op s :: z.operators } := by
  have hg : goesBefore op = fun w => decide (op.level < w.rightLevel) := by
    funext w
    exact Kind.goesBefore_eq h w
  unfold pushBinary yield
  rw [hg]
  cases applyWhile env y.floor (fun w => decide (op.level < w.rightLevel)) y.operators y.values with
  | error d => rfl
  | ok q => rfl

theorem yield_of_guarded (h : y.Guarded p) : y.yield env p = .ok y := by
  have hstop : applyWhile env y.floor (fun w => decide (p < w.rightLevel)) y.operators y.values =
      .ok (y.operators, y.values) := by
    apply applyWhile_stop
    intro w s ops he
    have hw := h w s ops he
    exact decide_eq_false (by omega)
  unfold yield
  rw [hstop]
  rfl

/-- A prefix operator gives way to its result. -/
theorem yield_unary (hop : op.isPrefixOperator = true) (hp : p < op.rightLevel)
    (hy : y.floor ≤ y.values.length) (v : Value) :
    (Run.operand v (y.pushPrefix op s)).yield env p =
      (env.prefixRule op v).mapError (Fault.orSpan · s) >>= fun r =>
        (Run.operand r y).yield env p := by
  have hr : decide (p < op.rightLevel) = true := decide_eq_true hp
  unfold yield
  change Run.settled ((applyWhile env y.floor _ (.operator op s :: y.operators) (v :: y.values)).map
    _) = _
  rw [applyWhile_cons hr, applyOperator_one hop hy]
  cases env.prefixRule op v with
  | error e => rfl
  | ok r => rfl

/-- An infix operator gives way to its result. -/
theorem yield_binary (hop : op.isPrefixOperator = false) (hp : p < op.rightLevel)
    (hy : y.floor ≤ y.values.length) (u v : Value) :
    (Run.operand v ((Run.operand u y).pushInfix op s)).yield env p =
      (env.infixRule op u v).mapError (Fault.orSpan · s) >>= fun r =>
        (Run.operand r y).yield env p := by
  have hr : decide (p < op.rightLevel) = true := decide_eq_true hp
  unfold yield
  change Run.settled ((applyWhile env y.floor _ (.operator op s :: y.operators)
    (v :: u :: y.values)).map _) = _
  rw [applyWhile_cons hr, applyOperator_two hop hy]
  cases env.infixRule op u v with
  | error e => rfl
  | ok r => rfl

end Yard

namespace Course

variable {env : Environment} {t : Token} {y : Yard}

theorem step_prefixOperator (ht : t.kind.isPrefixOperator = true) (hy : y.Waits) :
    (on y).step env t = .ok (.on (y.pushPrefix t.kind t.span)) := by
  have hs : (on y).step env t = (Run.onPrefix y t).map .on := by
    obtain ⟨k, q, s⟩ := t
    cases k <;> first | rfl | cases ht
  rw [hs, Run.onPrefix, Run.requireOperand_ok hy.expects]
  rfl

theorem step_infixOperator (ht : t.kind.isInfixOperator = true) (hy : y.expectsOperand = false) :
    (on y).step env t =
      (y.yield env t.kind.level).map fun z => .on (z.pushInfix t.kind t.span) := by
  have hs : (on y).step env t = (Run.onInfix env y t).map .on := by
    obtain ⟨k, q, s⟩ := t
    cases k <;> first | rfl | cases ht
  rw [hs, Run.onInfix, Run.requireOperator_ok hy, ok_bind, Yard.settled_pushBinary env ht]
  cases y.yield env t.kind.level with
  | error e => rfl
  | ok z => rfl

end Course

/-- Behind an operand, the rest of a course first lets operators go and then does `f`. -/
def Resumes {β : Type} (env : Environment) (p : Nat) (frames : List Frame)
    (rest : Course → Except Fault β) (f : Yard → Except Fault β) : Prop :=
  ∀ y : Yard, y.expectsOperand = false → y.frames = frames →
    rest (.on y) = y.yield env p >>= f

/-- From `y` on, the tokens do what the tree says, once an operator of level `p` lets the operators
go that wait behind them. -/
def Follows (env : Environment) (x : Tree) (as : List Token) (p : Nat) (y : Yard) : Prop :=
  ∀ (β : Type) (rest : Course → Except Fault β) (f : Yard → Except Fault β),
    Resumes env p y.frames rest f →
      (Course.on y).steps env as >>= rest =
        x.eval env >>= fun v => (Run.operand v y).yield env p >>= f

/-- The tokens put the value of the tree on the stack. -/
def Puts (env : Environment) (x : Tree) (as : List Token) (y : Yard) : Prop :=
  (Course.on y).steps env as = (x.eval env).map fun v => .on (Run.operand v y)

namespace Follows

variable {env : Environment} {x z : Tree} {as bs : List Token} {t : Token} {p : Nat} {y : Yard}

theorem of_puts (h : Puts env x as y) (p : Nat) : Follows env x as p y := by
  intro β rest f hrest
  rw [h]
  cases x.eval env with
  | error e => rfl
  | ok v => exact hrest (Run.operand v y) rfl rfl

/-- A prefix operator in front of its operand. -/
theorem unary (ht : t.kind.isPrefixOperator = true) (hy : y.Waits) (hp : p < t.kind.rightLevel)
    (h : Follows env x as p (y.pushPrefix t.kind t.span)) :
    Follows env (.unary t.kind t.span x) (t :: as) p y := by
  intro β rest f hrest
  rw [Course.steps_cons, Course.step_prefixOperator ht hy, ok_bind, h β rest f hrest,
    Tree.eval_unary, bind_bind]
  apply bind_congr
  intro v _
  rw [Yard.yield_unary ht hp hy.floor, bind_bind]

/-- An infix operator between its operands. -/
theorem binary (ht : t.kind.isInfixOperator = true) (hy : y.Waits) (hg : y.Guarded t.kind.level)
    (hp : p < t.kind.rightLevel) (hx : Follows env x as t.kind.level y)
    (hz : ∀ u, Follows env z bs p ((Run.operand u y).pushInfix t.kind t.span)) :
    Follows env (.binary t.kind t.span x z) (as ++ t :: bs) p y := by
  intro β rest f hrest
  -- behind the left operand comes the operator, and then the right operand
  have hop : Resumes env t.kind.level y.frames
      (fun c => c.step env t >>= fun c => c.steps env bs >>= rest)
      (fun w => (Course.on (w.pushInfix t.kind t.span)).steps env bs >>= rest) := by
    intro w hw _
    simp only [Course.step_infixOperator ht hw, bind_map]
  have hsteps : (Course.on y).steps env (as ++ t :: bs) >>= rest =
      (Course.on y).steps env as >>= fun c =>
        c.step env t >>= fun c => c.steps env bs >>= rest := by
    simp only [Course.steps_append, Course.steps_cons, bind_bind]
  rw [hsteps, hx β _ _ hop, Tree.eval_binary, bind_bind]
  apply bind_congr
  intro u _
  have hu : (Run.operand u y).yield env t.kind.level = .ok (Run.operand u y) :=
    Yard.yield_of_guarded hg
  rw [hu, ok_bind, hz u β rest f hrest, bind_bind]
  apply bind_congr
  intro v _
  rw [Yard.yield_binary (Kind.isPrefixOperator_eq_false ht) hp hy.floor, bind_bind]

end Follows

end Formula
