import Formula.Run
import Mathlib.Logic.Relation
import Mathlib.Tactic.Common

/-! What one pass of the operator loop does to the operator stack and the value stack: which
operators it takes off, how many values it uses up, and when it finds its operands. What an operator
can do is said once, and the loop is a chain of operators that do it. -/
namespace Formula

@[simp] theorem ok_bind {ε α β : Type} (a : α) (f : α → Except ε β) : Except.ok a >>= f = f a := rfl

@[simp] theorem error_bind {ε α β : Type} (e : ε) (f : α → Except ε β) :
    Except.error e >>= f = .error e := rfl

@[simp] theorem map_ok {ε α β : Type} (a : α) (f : α → β) :
    (Except.ok a : Except ε α).map f = .ok (f a) := rfl

@[simp] theorem map_error {ε α β : Type} (e : ε) (f : α → β) :
    (Except.error e : Except ε α).map f = .error e := rfl

@[simp] theorem mapError_ok {ε δ α : Type} (a : α) (f : ε → δ) :
    (Except.ok a : Except ε α).mapError f = .ok a := rfl

@[simp] theorem mapError_error {ε δ α : Type} (e : ε) (f : ε → δ) :
    (Except.error e : Except ε α).mapError f = .error (f e) := rfl

theorem bind_eq_ok {ε α β : Type} {x : Except ε α} {f : α → Except ε β} {b : β} :
    x >>= f = .ok b ↔ ∃ a, x = .ok a ∧ f a = .ok b := by
  cases x <;> simp [bind, Except.bind]

theorem map_eq_ok {ε α β : Type} {x : Except ε α} {f : α → β} {b : β} :
    x.map f = .ok b ↔ ∃ a, x = .ok a ∧ f a = b := by
  cases x <;> simp [Except.map]

theorem mapError_eq_ok {ε δ α : Type} {x : Except ε α} {f : ε → δ} {a : α} :
    x.mapError f = .ok a ↔ x = .ok a := by
  cases x <;> simp [Except.mapError]

theorem bind_eq_error {ε α β : Type} {x : Except ε α} {f : α → Except ε β} {e : ε} :
    x >>= f = .error e ↔ x = .error e ∨ ∃ a, x = .ok a ∧ f a = .error e := by
  cases x <;> simp [bind, Except.bind]

theorem map_eq_error {ε α β : Type} {x : Except ε α} {f : α → β} {e : ε} :
    x.map f = .error e ↔ x = .error e := by
  cases x <;> simp [Except.map]

theorem mapError_eq_error {ε δ α : Type} {x : Except ε α} {f : ε → δ} {e : δ} :
    x.mapError f = .error e ↔ ∃ d, x = .error d ∧ f d = e := by
  cases x <;> simp [Except.mapError]

theorem map_map {ε α β γ : Type} (x : Except ε α) (f : α → β) (g : β → γ) :
    (x.map f).map g = x.map fun a => g (f a) := by
  cases x <;> rfl

theorem map_bind {ε α β γ : Type} (x : Except ε α) (f : α → Except ε β) (g : β → γ) :
    (x >>= f).map g = x >>= fun a => (f a).map g := by
  cases x <;> rfl

theorem bind_map {ε α β γ : Type} (x : Except ε α) (f : α → β) (g : β → Except ε γ) :
    x.map f >>= g = x >>= fun a => g (f a) := by
  cases x <;> rfl

theorem bind_bind {ε α β γ : Type} (x : Except ε α) (f : α → Except ε β) (g : β → Except ε γ) :
    x >>= f >>= g = x >>= fun a => f a >>= g := by
  cases x <;> rfl

theorem bind_congr {ε α β : Type} {x : Except ε α} {f g : α → Except ε β}
    (h : ∀ a, x = .ok a → f a = g a) : x >>= f = x >>= g := by
  cases x with
  | error e => rfl
  | ok a => exact h a rfl

namespace Stacked

/-- An infix operator, which uses up one value more than it leaves. -/
def isInfix : Stacked → Bool
  | .operator op _ => !op.isPrefixOperator
  | .marker => false

/-- The number of infix operators on a stack. -/
def infixCount (ops : List Stacked) : Nat := ops.countP isInfix

/-- For each marker from the top on, the number of infix operators below it. -/
def floors : List Stacked → List Nat
  | [] => []
  | .marker :: ops => infixCount ops :: floors ops
  | .operator _ _ :: ops => floors ops

/-- The number of infix operators below the innermost marker, zero without a marker. -/
def ground (ops : List Stacked) : Nat := (floors ops).head?.getD 0

@[simp] theorem infixCount_nil : infixCount [] = 0 := rfl

@[simp] theorem infixCount_marker (ops : List Stacked) :
    infixCount (.marker :: ops) = infixCount ops := by simp [infixCount, isInfix]

@[simp] theorem infixCount_operator (op : Kind) (s : Span) (ops : List Stacked) :
    infixCount (.operator op s :: ops) =
      infixCount ops + if op.isPrefixOperator then 0 else 1 := by
  cases h : op.isPrefixOperator <;> simp [infixCount, isInfix, h]

@[simp] theorem infixCount_append (ops qs : List Stacked) :
    infixCount (ops ++ qs) = infixCount ops + infixCount qs := List.countP_append

@[simp] theorem ground_marker (ops : List Stacked) : ground (.marker :: ops) = infixCount ops := rfl

@[simp] theorem ground_operator (op : Kind) (s : Span) (ops : List Stacked) :
    ground (.operator op s :: ops) = ground ops := rfl

theorem ground_le (ops : List Stacked) : ground ops ≤ infixCount ops := by
  induction ops with
  | nil => simp [ground, floors]
  | cons o ops ih =>
    cases o with
    | marker => simp
    | operator op s => simp; omega

/-- Operators above the innermost marker do not move the floors. -/
theorem floors_append {seg : List Stacked} (h : .marker ∉ seg) (ops : List Stacked) :
    floors (seg ++ ops) = floors ops := by
  induction seg with
  | nil => rfl
  | cons o seg ih =>
    cases o with
    | marker => simp at h
    | operator op s => simpa [floors] using ih (by simpa using h)

end Stacked

/-- The rule of an operator fails on its operands, on top of a value stack. -/
inductive Environment.Fails (env : Environment) (op : Kind) : List Value → Fault → Prop
  | one {v vs e} (hop : op.isPrefixOperator = true) (h : env.prefixRule op v = .error e) :
      Fails env op (v :: vs) e
  | two {u v vs e} (hop : op.isPrefixOperator = false) (h : env.infixRule op u v = .error e) :
      Fails env op (v :: u :: vs) e

/-- What an operator that has its operands can report, at its own place unless it has another. -/
inductive Environment.OperatorFault (env : Environment) : Fault → Prop
  | one {op s v e} (h : env.prefixRule op v = .error e) : OperatorFault env (e.orSpan s)
  | two {op s u v e} (h : env.infixRule op u v = .error e) : OperatorFault env (e.orSpan s)

theorem Environment.Fails.operatorFault {env : Environment} {op : Kind} {vs : List Value}
    {e : Fault} (h : env.Fails op vs e) (s : Span) : env.OperatorFault (e.orSpan s) := by
  cases h with
  | one _ h => exact .one h
  | two _ h => exact .two h

namespace Yard

/-- What an operator makes of a value stack. Its operands lie above the floor, and the result takes
their place. -/
inductive Performs (env : Environment) (floor : Nat) (op : Kind) : List Value → List Value → Prop
  | one {v r vs} (hop : op.isPrefixOperator = true) (hfloor : floor ≤ vs.length)
      (h : env.prefixRule op v = .ok r) : Performs env floor op (v :: vs) (r :: vs)
  | two {u v r vs} (hop : op.isPrefixOperator = false) (hfloor : floor ≤ vs.length)
      (h : env.infixRule op u v = .ok r) : Performs env floor op (v :: u :: vs) (r :: vs)

/-- How an operator breaks, and the values that are left. What lies under the floor is no operand,
and an operand that it has taken is gone. -/
inductive Breaks (env : Environment) (floor : Nat) (op : Kind) (s : Span) :
    List Value → Fault → List Value → Prop
  | noOperand {vs} (h : vs.length ≤ floor) : Breaks env floor op s vs (.unbalanced 0 s) vs
  | noLeftOperand {v vs} (hop : op.isPrefixOperator = false) (h : vs.length = floor) :
      Breaks env floor op s (v :: vs) (.unbalanced 0 s) vs
  | one {v vs e} (hop : op.isPrefixOperator = true) (hfloor : floor ≤ vs.length)
      (h : env.prefixRule op v = .error e) : Breaks env floor op s (v :: vs) (e.orSpan s) vs
  | two {u v vs e} (hop : op.isPrefixOperator = false) (hfloor : floor ≤ vs.length)
      (h : env.infixRule op u v = .error e) : Breaks env floor op s (v :: u :: vs) (e.orSpan s) vs

/-- The loop applies the operator on top of the first pair of stacks and comes to the second. -/
inductive Applies (env : Environment) (floor : Nat) :
    List Stacked × List Value → List Stacked × List Value → Prop
  | apply {op s ops vs ws} (h : applyOperator env floor op s vs = .ok ws) :
      Applies env floor (.operator op s :: ops, vs) (ops, ws)

variable {env : Environment} {floor : Nat} {ready : Kind → Bool} {op : Kind} {s : Span}
  {ops : List Stacked} {vs : List Value}

theorem popOperand_cons (h : floor ≤ vs.length) (v : Value) :
    popOperand floor s (v :: vs) = .ok (v, vs) := by
  simp [popOperand, reaches_iff, h]

theorem popOperand_eq_ok {v : Value} {ws : List Value} :
    popOperand floor s vs = .ok (v, ws) ↔ vs = v :: ws ∧ floor ≤ ws.length := by
  cases vs with
  | nil => simp [popOperand]
  | cons u us =>
    by_cases h : floor ≤ us.length
    · rw [popOperand_cons h]
      constructor
      · rintro ⟨⟩; exact ⟨rfl, h⟩
      · rintro ⟨⟨⟩, -⟩; rfl
    · simp only [popOperand, reaches_iff, h, ↓reduceIte, reduceCtorEq, false_iff, not_and]
      rintro ⟨⟩; exact h

/-- A prefix operator whose operand is there. -/
theorem applyOperator_one (hop : op.isPrefixOperator = true) (h : floor ≤ vs.length)
    (v : Value) :
    applyOperator env floor op s (v :: vs) =
      ((env.prefixRule op v).map (· :: vs)).mapError fun e => (e.orSpan s, vs) := by
  simp only [applyOperator, popOperand_cons h, hop, ↓reduceIte]
  cases env.prefixRule op v with
  | error e => rfl
  | ok r => rfl

/-- An infix operator whose operands are there. -/
theorem applyOperator_two (hop : op.isPrefixOperator = false) (h : floor ≤ vs.length)
    (u v : Value) :
    applyOperator env floor op s (v :: u :: vs) =
      ((env.infixRule op u v).map (· :: vs)).mapError fun e => (e.orSpan s, vs) := by
  have hv : floor ≤ (u :: vs).length := by simp; omega
  simp only [applyOperator, popOperand_cons hv, popOperand_cons h, hop, Bool.false_eq_true,
    ↓reduceIte]
  cases env.infixRule op u v with
  | error e => rfl
  | ok r => rfl

theorem popOperand_eq_error {e : Fault} (h : popOperand floor s vs = .error e) :
    vs.length ≤ floor ∧ e = .unbalanced 0 s := by
  cases vs with
  | nil =>
    cases h
    exact ⟨Nat.zero_le floor, rfl⟩
  | cons v vs =>
    by_cases hfloor : floor ≤ vs.length
    · rw [popOperand_cons hfloor] at h
      cases h
    · simp only [popOperand, reaches_iff, hfloor, ↓reduceIte, Except.error.injEq] at h
      exact ⟨Nat.lt_of_not_le hfloor, h.symm⟩

/-- An operator performs or breaks. -/
theorem performs_or_breaks (env : Environment) (floor : Nat) (op : Kind) (s : Span)
    (vs : List Value) :
    (∃ ws, applyOperator env floor op s vs = .ok ws ∧ Performs env floor op vs ws) ∨
      ∃ e ws, applyOperator env floor op s vs = .error (e, ws) ∧ Breaks env floor op s vs e ws := by
  cases hv : popOperand floor s vs with
  | error e =>
    obtain ⟨hlength, rfl⟩ := popOperand_eq_error hv
    exact .inr ⟨_, vs, by simp only [applyOperator, hv], .noOperand hlength⟩
  | ok p =>
    obtain ⟨v, vs⟩ := p
    obtain ⟨rfl, hfloor⟩ := popOperand_eq_ok.mp hv
    cases hop : op.isPrefixOperator with
    | true =>
      rw [applyOperator_one hop hfloor]
      cases hr : env.prefixRule op v with
      | ok r => exact .inl ⟨_, rfl, .one hop hfloor hr⟩
      | error e => exact .inr ⟨_, _, rfl, .one hop hfloor hr⟩
    | false =>
      cases hu : popOperand floor s vs with
      | error e =>
        obtain ⟨hlength, rfl⟩ := popOperand_eq_error hu
        refine .inr ⟨_, vs, ?_, .noLeftOperand hop (Nat.le_antisymm hlength hfloor)⟩
        simp only [applyOperator, hv, hu, hop, Bool.false_eq_true, ↓reduceIte]
      | ok p =>
        obtain ⟨u, us⟩ := p
        obtain ⟨rfl, hfloor'⟩ := popOperand_eq_ok.mp hu
        rw [applyOperator_two hop hfloor']
        cases hr : env.infixRule op u v with
        | ok r => exact .inl ⟨_, rfl, .two hop hfloor' hr⟩
        | error e => exact .inr ⟨_, _, rfl, .two hop hfloor' hr⟩

theorem performs_of_applyOperator {ws : List Value}
    (h : applyOperator env floor op s vs = .ok ws) : Performs env floor op vs ws := by
  rcases performs_or_breaks env floor op s vs with ⟨us, hus, hperforms⟩ | ⟨e, us, hus, -⟩
  · rw [h] at hus
    cases hus
    exact hperforms
  · rw [h] at hus
    cases hus

theorem breaks_of_applyOperator {e : Fault} {ws : List Value}
    (h : applyOperator env floor op s vs = .error (e, ws)) : Breaks env floor op s vs e ws := by
  rcases performs_or_breaks env floor op s vs with ⟨us, hus, -⟩ | ⟨d, us, hus, hbreaks⟩
  · rw [h] at hus
    cases hus
  · rw [h] at hus
    cases hus
    exact hbreaks

/-- An operator leaves one value in the place of its operands. -/
theorem Performs.length {ws : List Value} (h : Performs env floor op vs ws) :
    ws.length + (if op.isPrefixOperator then 0 else 1) = vs.length ∧ floor < ws.length := by
  cases h with
  | one hop hfloor =>
    simp only [hop, ↓reduceIte, List.length_cons, Nat.add_zero, true_and]
    exact Nat.lt_succ_of_le hfloor
  | two hop hfloor =>
    simp only [hop, Bool.false_eq_true, ↓reduceIte, List.length_cons, true_and]
    exact Nat.lt_succ_of_le hfloor

/-- The fault of an operator is that of its rule, unless an operand is missing. -/
theorem Breaks.fails {e : Fault} {ws : List Value} (h : Breaks env floor op s vs e ws)
    (hv : floor + (if op.isPrefixOperator then 0 else 1) < vs.length) :
    ∃ d, env.Fails op vs d ∧ e = d.orSpan s := by
  cases h with
  | noOperand h => omega
  | noLeftOperand hop h =>
    simp only [hop, Bool.false_eq_true, ↓reduceIte, List.length_cons] at hv
    omega
  | one hop _ h => exact ⟨_, .one hop h, rfl⟩
  | two hop _ h => exact ⟨_, .two hop h, rfl⟩

/-- The loop stops at once where no operator is on top that goes first. -/
theorem applyWhile_stop (h : ∀ op s tl, ops = .operator op s :: tl → ready op = false)
    (vs : List Value) : applyWhile env floor ready ops vs = .ok (ops, vs) := by
  cases ops with
  | nil => rfl
  | cons o ops =>
    cases o with
    | marker => rfl
    | operator op s => simp [applyWhile, h op s ops rfl]

theorem applyWhile_cons (h : ready op = true) :
    applyWhile env floor ready (.operator op s :: ops) vs =
      ((applyOperator env floor op s vs).mapError fun q => ⟨q.1, ops, q.2⟩) >>=
        applyWhile env floor ready ops := by
  simp only [applyWhile, h, ↓reduceIte]
  cases applyOperator env floor op s vs with
  | error q => rfl
  | ok ws => rfl

/-- The loop applies operators, one after the other, until it comes to one that does not go
first. -/
theorem applies_of_applyWhile {ops' : List Stacked} {vs' : List Value}
    (h : applyWhile env floor ready ops vs = .ok (ops', vs')) :
    Relation.ReflTransGen (Applies env floor) (ops, vs) (ops', vs') ∧
      ∀ op s tl, ops' = .operator op s :: tl → ready op = false := by
  induction ops generalizing vs with
  | nil =>
    cases h
    exact ⟨.refl, by simp⟩
  | cons o ops ih =>
    cases o with
    | marker =>
      cases h
      exact ⟨.refl, by simp⟩
    | operator op s =>
      cases hr : ready op with
      | false =>
        have hstop : ∀ op' s' tl, Stacked.operator op s :: ops = .operator op' s' :: tl →
            ready op' = false := by
          rintro _ _ _ ⟨⟩
          exact hr
        rw [applyWhile_stop hstop] at h
        cases h
        exact ⟨.refl, hstop⟩
      | true =>
        rw [applyWhile_cons hr] at h
        obtain ⟨ws, hws, h⟩ := bind_eq_ok.mp h
        obtain ⟨happlies, hstop⟩ := ih h
        exact ⟨.head (.apply (mapError_eq_ok.mp hws)) happlies, hstop⟩

/-- Where the loop fails, it comes to an operator that breaks. -/
theorem breaks_of_applyWhile {d : Halted}
    (h : applyWhile env floor ready ops vs = .error d) :
    ∃ op s vs', Relation.ReflTransGen (Applies env floor) (ops, vs)
        (.operator op s :: d.operators, vs') ∧
      Breaks env floor op s vs' d.fault d.values := by
  induction ops generalizing vs with
  | nil => cases h
  | cons o ops ih =>
    cases o with
    | marker => cases h
    | operator op s =>
      cases hr : ready op with
      | false =>
        rw [applyWhile_stop (by rintro _ _ _ ⟨⟩; exact hr)] at h
        cases h
      | true =>
        rw [applyWhile_cons hr] at h
        rcases bind_eq_error.mp h with h | ⟨ws, hws, h⟩
        · obtain ⟨⟨e, ws⟩, hbreaks, rfl⟩ := mapError_eq_error.mp h
          exact ⟨op, s, vs, .refl, breaks_of_applyOperator hbreaks⟩
        · obtain ⟨op', s', vs', happlies, hbreaks⟩ := ih h
          exact ⟨op', s', vs', .head (.apply (mapError_eq_ok.mp hws)) happlies, hbreaks⟩

/-- Operators that are applied come off the top of the innermost bracket, and each infix operator
leaves one value less. -/
theorem segment_of_applies {a b : List Stacked × List Value}
    (h : Relation.ReflTransGen (Applies env floor) a b) :
    ∃ seg, a.1 = seg ++ b.1 ∧ Stacked.marker ∉ seg ∧
      a.2.length = b.2.length + Stacked.infixCount seg := by
  induction h using Relation.ReflTransGen.head_induction_on with
  | refl => exact ⟨[], by simp⟩
  | head hstep _ ih =>
    obtain ⟨seg, hseg, hmarker, hlength⟩ := ih
    obtain ⟨hws⟩ := hstep
    rename_i op s ops vs ws _
    have hused := (performs_of_applyOperator hws).length.1
    refine ⟨.operator op s :: seg, ?_, by simpa using hmarker, ?_⟩
    · rw [List.cons_append, ← hseg]
    · rw [Stacked.infixCount_operator]
      simp only at hlength ⊢
      omega

/-- The loop takes operators off the top of the innermost bracket, one value less for each
infix operator, and comes to one that does not go first. -/
theorem applyWhile_eq_ok {ops' : List Stacked} {vs' : List Value}
    (h : applyWhile env floor ready ops vs = .ok (ops', vs')) :
    ∃ seg, ops = seg ++ ops' ∧ Stacked.marker ∉ seg ∧
      vs.length = vs'.length + Stacked.infixCount seg ∧
      ∀ op s tl, ops' = .operator op s :: tl → ready op = false := by
  obtain ⟨happlies, hstop⟩ := applies_of_applyWhile h
  obtain ⟨seg, hseg, hmarker, hlength⟩ := segment_of_applies happlies
  exact ⟨seg, hseg, hmarker, hlength, hstop⟩

end Yard
end Formula
