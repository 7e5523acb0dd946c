import Formula.Proofs.Discipline
import Formula.Proofs.Grammar

/-! What can end a run besides the structure of its tokens: a limit, or a fault of a name, an
operator, a key or a call. An interruption is exactly what the run reports. -/
namespace Formula

namespace Yard

/-- The token ends an expression in the innermost bracket. -/
def Ends (y : Yard) (k : Kind) : Prop :=
  match k with
  | .comma => True
  | .pairArrow => ∃ es base s fs, y.frames = ⟨.array es none, base, s⟩ :: fs
  | .parenClose => ∃ f fs, y.frames = f :: fs ∧ f.collected.isArray = false
  | .arrayClose => ∃ f fs, y.frames = f :: fs ∧ f.collected.isArray = true
  | _ => False

/-- An evaluation that the token asks for fails. -/
inductive Interrupted (env : Environment) (y : Yard) (t : Token) : Fault → Prop
  | name {e} (hk : t.kind = .identifier) (hy : y.expectsOperand = true)
      (h : env.resolve t.name = .error e) : Interrupted env y t (e.orSpan t.span)
  | operation {e} (hk : t.kind.isInfixOperator = true) (hy : y.expectsOperand = false)
      (h : y.pushBinary env t.kind t.span = .error e) (ho : env.OperatorFault e.fault) :
      Interrupted env y t e.fault
  | expression {e} (hk : y.Ends t.kind) (hy : y.expectsOperand = false)
      (h : y.reduce env = .error e) (ho : env.OperatorFault e.fault) : Interrupted env y t e.fault
  | key {w w' es key base s fs v e} (hk : t.kind = .comma) (hy : y.expectsOperand = false)
      (hw : y.reduce env = .ok w) (hf : w.frames = ⟨.array es key, base, s⟩ :: fs)
      (hv : w.takeSingle base t.span = .ok (v, w')) (h : Entries.store es key v = .error e) :
      Interrupted env y t (e.orSpan t.span)
  | emptyClose {f fs e} (hk : t.kind.isCloser = true) (hf : y.frames = f :: fs)
      (ha : f.collected.isArray = (t.kind == .arrayClose)) (hb : Run.isBlank y f = true)
      (h : Run.closeValue env f t none = .error e) : Interrupted env y t e
  | close {f fs w w' v e} (hk : t.kind.isCloser = true) (hf : y.frames = f :: fs)
      (ha : f.collected.isArray = (t.kind == .arrayClose)) (hy : y.expectsOperand = false)
      (hw : y.reduce env = .ok w) (hv : w.takeSingle f.base t.span = .ok (v, w'))
      (h : Run.closeValue env f t (some v) = .error e) : Interrupted env y t e

end Yard

namespace Run

/-- A limit stops the run in front of the token. -/
inductive Limited (limits : Limits) (r : Run) (t : Token) : Fault → Prop
  | budget {e} (ha : r.awaiting = none) (h : checkBudget limits r = .error e) :
      Limited limits r t e
  | bracket {e} (ha : r.awaiting = none) (hb : checkBudget limits r = .ok ())
      (hk : t.kind.isOpener = true) (hy : r.yard.expectsOperand = true)
      (h : checkDepth limits r.yard t = .error e) : Limited limits r t e
  | call {call e} (ha : r.awaiting = some call) (hk : t.kind = .parenOpen)
      (hy : r.yard.expectsOperand = true) (h : checkDepth limits r.yard call = .error e) :
      Limited limits r t e

/-- A limit or a failing evaluation ends the run at the token. -/
inductive Interrupted (env : Environment) (r : Run) (t : Token) : Fault → Prop
  | limit {e} (h : r.Limited env.limits t e) : Interrupted env r t e
  | evaluation {e} (ha : r.awaiting = none) (hb : checkBudget env.limits r = .ok ())
      (h : r.yard.Interrupted env t e) : Interrupted env r t e

end Run

/-- A limit or a failing evaluation ends the evaluation of the tokens with the fault. -/
inductive Interrupted (env : Environment) (ts : List Token) : Fault → Prop
  | token {as t bs r e} (hts : ts = as ++ t :: bs) (hr : Run.start.steps env as = .ok r)
      (h : r.Interrupted env t e) : Interrupted env ts e
  | finish {r e} (hts : ts ≠ []) (hr : Run.start.steps env ts = .ok r) (ha : r.awaiting = none)
      (hf : r.yard.frames = []) (hy : r.yard.expectsOperand = false)
      (h : r.yard.reduce env = .error e) (ho : env.OperatorFault e.fault) :
      Interrupted env ts e.fault

namespace Run

variable {env : Environment} {r : Run} {t : Token} {e : Fault}

theorem requireOperand_ok {y : Yard} (h : y.expectsOperand = true) (t : Token) :
    requireOperand y t = .ok () := if_pos h

theorem requireOperator_ok {y : Yard} (h : y.expectsOperand = false) (t : Token) :
    requireOperator y t = .ok () := by simp [requireOperator, h]

theorem process_opener (hk : t.kind.isOpener = true) :
    process env r t =
      (onOpen env.limits r.yard t (if t.kind = .arrayOpen then .array [] none else .group)).map
        r.next := by
  obtain ⟨k, p, s⟩ := t
  cases k <;> first | rfl | cases hk

theorem process_infixOperator (hk : t.kind.isInfixOperator = true) :
    process env r t = (onInfix env r.yard t).map r.next := by
  obtain ⟨k, p, s⟩ := t
  cases k <;> first | rfl | cases hk

theorem process_closer (hk : t.kind.isCloser = true) :
    process env r t = (onClose env r.yard t).map fun (y, time) =>
      { r.next y with elapsed := r.elapsed + time } := by
  obtain ⟨k, p, s⟩ := t
  cases k <;> first | rfl | cases hk

theorem Limited.step (h : r.Limited env.limits t e) : r.step env t = .error e := by
  cases h with
  | budget ha h => simp [Run.step, ha, h]
  | bracket ha hb hk hy h =>
    simp [Run.step, ha, hb, process_opener hk, onOpen, requireOperand_ok hy, h]
  | call ha hk hy h =>
    simp [Run.step, ha, openCall, hk, onOpen, requireOperand_ok hy, h]

theorem process_of_ends (hk : r.yard.Ends t.kind) (hy : r.yard.expectsOperand = false)
    {h : Yard.Halted} (hr : r.yard.reduce env = .error h) : process env r t = .error h.fault := by
  have hs : settled (r.yard.reduce env) = .error h.fault := by rw [hr]; rfl
  have hclose : ∀ f fs, t.kind.isCloser = true → r.yard.frames = f :: fs →
      f.collected.isArray = (t.kind == .arrayClose) → process env r t = .error h.fault := by
    intro f fs hc hf ha
    have hb : isBlank r.yard f = false := by simp [isBlank, hy]
    simp [process_closer hc, onClose, hf, ha, hb, hy, hs]
  cases hkind : t.kind with
  | comma => simp [process, hkind, onComma, requireOperator_ok hy, hs]
  | pairArrow =>
    rw [hkind] at hk
    obtain ⟨es, base, s, fs, hf⟩ := hk
    simp [process, hkind, onArrow, requireOperator_ok hy, hf, hs]
  | parenClose =>
    rw [hkind] at hk
    obtain ⟨f, fs, hf, ha⟩ := hk
    exact hclose f fs (by rw [hkind]; rfl) hf (by rw [hkind]; exact ha)
  | arrayClose =>
    rw [hkind] at hk
    obtain ⟨f, fs, hf, ha⟩ := hk
    exact hclose f fs (by rw [hkind]; rfl) hf (by rw [hkind]; exact ha)
  | _ => simp [Yard.Ends, hkind] at hk

theorem process_of_interrupted (h : r.yard.Interrupted env t e) : process env r t = .error e := by
  cases h with
  | name hk hy h => simp [process, hk, onValue, requireOperand_ok hy, h]
  | operation hk hy h _ =>
    simp [process_infixOperator hk, onInfix, requireOperator_ok hy, settled, h]
  | expression hk hy h _ => exact process_of_ends hk hy h
  | key hk hy hw hf hv h =>
    simp [process, hk, onComma, requireOperator_ok hy, settled, hw, hf, hv, h]
  | emptyClose hk hf ha hb h =>
    simp [process_closer hk, onClose, hf, ha, hb, Yard.closeFrame, h]
  | @close f fs w w' v e hk hf ha hy hw hv h =>
    have hb : isBlank r.yard f = false := by simp [isBlank, hy]
    simp [process_closer hk, onClose, hf, ha, hb, hy, settled, hw, hv, Yard.closeFrame, h]

theorem Interrupted.step (h : r.Interrupted env t e) : r.step env t = .error e := by
  cases h with
  | limit h => exact h.step
  | evaluation ha hb h => simp [Run.step, ha, hb, process_of_interrupted h]

end Run

theorem evaluateTokens_of_ne_nil (env : Environment) {ts : List Token} (h : ts ≠ []) :
    evaluateTokens env ts =
      Run.start.steps env ts >>= fun r => r.finish env (ts.getLast h) := by
  rw [evaluateTokens, List.getLast?_eq_some_getLast h]

/-- An interruption is what the evaluation reports. -/
theorem evaluateTokens_of_interrupted {env : Environment} {ts : List Token} {e : Fault}
    (h : Interrupted env ts e) : evaluateTokens env ts = .error e := by
  cases h with
  | @token as t bs r e hts hr h =>
    have hs : Run.start.steps env ts = .error e := by
      rw [hts, Run.steps_append, hr, ok_bind, Run.steps_cons, h.step, error_bind]
    rw [evaluateTokens_of_ne_nil env (by simp [hts]), hs, error_bind]
  | @finish r e hts hr ha hf hy h _ =>
    rw [evaluateTokens_of_ne_nil env hts, hr]
    simp [Run.finish, ha, hf, hy, Run.settled, h]

end Formula
