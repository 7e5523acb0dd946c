import Formula.Proofs.Stack

/-! What a token does to the stacks when it is taken: one statement for each class of tokens,
with everything that was checked on the way. -/
namespace Formula

/-- What a bracket has collected after a separator has ended the value `v` in it. -/
inductive Collected.Receives : Kind → Collected → Value → Collected → Prop
  | argument {name args v} : Receives .comma (.call name args) v (.call name (args ++ [v]))
  | entry {es key v es'} (h : Entries.store es key v = .ok es') :
      Receives .comma (.array es key) v (.array es' none)
  | key {es v} : Receives .pairArrow (.array es none) v (.array es (some v))

namespace Yard

variable {env : Environment} {y z : Yard}

/-- Nothing but a marker or the bottom lies on top of the operators. -/
def Reduced (y : Yard) : Prop := ∀ op s ops, y.operators ≠ .operator op s :: ops

theorem reduce_eq_ok (h : y.reduce env = .ok z) :
    ∃ seg vs, y.operators = seg ++ z.operators ∧ Stacked.marker ∉ seg ∧
      y.values.length = vs.length + Stacked.infixCount seg ∧
      z = { y with operators := z.operators, values := vs } ∧ z.Reduced := by
  obtain ⟨⟨ops, vs⟩, ha, rfl⟩ := map_eq_ok.mp h
  obtain ⟨seg, hs, hm, hl, ht⟩ := applyWhile_eq_ok ha
  refine ⟨seg, vs, hs, hm, hl, rfl, ?_⟩
  intro op s tl he
  have hf := ht op s tl he
  cases hf

theorem pushBinary_eq_ok {op : Kind} {s : Span} (h : y.pushBinary env op s = .ok z) :
    ∃ seg ops vs, y.operators = seg ++ ops ∧ Stacked.marker ∉ seg ∧
      y.values.length = vs.length + Stacked.infixCount seg ∧
      z = { y with operators := .operator op s :: ops, values := vs } := by
  obtain ⟨⟨ops, vs⟩, ha, rfl⟩ := map_eq_ok.mp h
  obtain ⟨seg, hs, hm, hl, -⟩ := applyWhile_eq_ok ha
  exact ⟨seg, ops, vs, hs, hm, hl, rfl⟩

theorem takeSingle_eq_ok {base : Nat} {s : Span} {v : Value}
    (h : y.takeSingle base s = .ok (v, z)) :
    ∃ vs, y.values = v :: vs ∧ vs.length = base ∧ z = { y with values := vs } := by
  simp only [takeSingle] at h
  split at h
  · cases h
  · rename_i u us hu
    split at h <;> cases h
    exact ⟨us, hu, by assumption, rfl⟩

theorem frames_reduce (h : y.reduce env = .ok z) :
    z.frames = y.frames ∧ z.expectsOperand = y.expectsOperand := by
  obtain ⟨_, _, _, _, _, he, _⟩ := reduce_eq_ok h
  rw [he]
  exact ⟨rfl, rfl⟩

end Yard

namespace Run

variable {env : Environment} {y z : Yard} {t : Token}

theorem requireOperand_eq_ok {u : Unit} :
    requireOperand y t = .ok u ↔ y.expectsOperand = true := by
  cases h : y.expectsOperand <;> simp [requireOperand, h]

theorem requireOperator_eq_ok {u : Unit} :
    requireOperator y t = .ok u ↔ y.expectsOperand = false := by
  cases h : y.expectsOperand <;> simp [requireOperator, h]

theorem checkDepth_eq_ok {limits : Limits} {u : Unit} :
    checkDepth limits y t = .ok u ↔ y.frames.length < limits.depth := by
  by_cases h : limits.depth < y.frames.length + 1
  · simp [checkDepth, h]; omega
  · simp [checkDepth, h]; omega

theorem settled_eq_ok {r : Except Yard.Halted Yard} : settled r = .ok z ↔ r = .ok z :=
  mapError_eq_ok

theorem onValue_eq_ok {v : Except Fault Value} (h : onValue y t v = .ok z) :
    y.expectsOperand = true ∧ ∃ w, v = .ok w ∧ z = operand w y := by
  obtain ⟨_, hy, h⟩ := bind_eq_ok.mp h
  obtain ⟨w, hw, h⟩ := bind_eq_ok.mp h
  cases h
  exact ⟨requireOperand_eq_ok.mp hy, w, hw, rfl⟩

theorem onOpen_eq_ok {limits : Limits} {c : Collected} (h : onOpen limits y t c = .ok z) :
    y.expectsOperand = true ∧ y.frames.length < limits.depth ∧
      z = { y.openFrame c t.span with expectsOperand := true } := by
  obtain ⟨_, hy, h⟩ := bind_eq_ok.mp h
  obtain ⟨_, hd, h⟩ := bind_eq_ok.mp h
  cases h
  exact ⟨requireOperand_eq_ok.mp hy, checkDepth_eq_ok.mp hd, rfl⟩

theorem onPrefix_eq_ok (h : onPrefix y t = .ok z) :
    y.expectsOperand = true ∧ z = y.pushPrefix t.kind t.span := by
  obtain ⟨_, hy, h⟩ := bind_eq_ok.mp h
  cases h
  exact ⟨requireOperand_eq_ok.mp hy, rfl⟩

theorem onInfix_eq_ok (h : onInfix env y t = .ok z) :
    y.expectsOperand = false ∧ ∃ w, y.pushBinary env t.kind t.span = .ok w ∧
      z = { w with expectsOperand := true } := by
  obtain ⟨_, hy, h⟩ := bind_eq_ok.mp h
  obtain ⟨w, hw, h⟩ := bind_eq_ok.mp h
  cases h
  exact ⟨requireOperator_eq_ok.mp hy, w, settled_eq_ok.mp hw, rfl⟩

/-- The effect of a separator: the innermost bracket receives the value behind it. -/
def Separated (env : Environment) (y : Yard) (k : Kind) (z : Yard) : Prop :=
  y.expectsOperand = false ∧ ∃ w f fs v vs c, y.reduce env = .ok w ∧ y.frames = f :: fs ∧
    w.values = v :: vs ∧ vs.length = f.base ∧ f.collected.Receives k v c ∧
    z = ⟨w.operators, vs, { f with collected := c } :: fs, true⟩

theorem onComma_eq_ok (h : onComma env y t = .ok z) : Separated env y .comma z := by
  obtain ⟨_, hy, h⟩ := bind_eq_ok.mp h
  obtain ⟨w, hw, h⟩ := bind_eq_ok.mp h
  rw [settled_eq_ok] at hw
  have hf := (Yard.frames_reduce hw).1
  refine ⟨requireOperator_eq_ok.mp hy, w, ?_⟩
  split at h
  · rename_i name args base s fs he
    obtain ⟨⟨v, w'⟩, ht, h⟩ := bind_eq_ok.mp h
    obtain ⟨vs, hv, hl, rfl⟩ := Yard.takeSingle_eq_ok ht
    cases h
    refine ⟨_, fs, v, vs, _, hw, hf.symm.trans he, hv, hl, .argument, ?_⟩
    simp [Yard.collect, he]
  · rename_i es key base s fs he
    obtain ⟨⟨v, w'⟩, ht, h⟩ := bind_eq_ok.mp h
    obtain ⟨vs, hv, hl, rfl⟩ := Yard.takeSingle_eq_ok ht
    obtain ⟨es', hs, h⟩ := bind_eq_ok.mp h
    cases h
    refine ⟨_, fs, v, vs, _, hw, hf.symm.trans he, hv, hl, .entry (mapError_eq_ok.mp hs), ?_⟩
    simp [Yard.collect, he]
  · cases h

theorem onArrow_eq_ok (h : onArrow env y t = .ok z) : Separated env y .pairArrow z := by
  obtain ⟨_, hy, h⟩ := bind_eq_ok.mp h
  refine ⟨requireOperator_eq_ok.mp hy, ?_⟩
  split at h
  · rename_i es base s fs he
    obtain ⟨w, hw, h⟩ := bind_eq_ok.mp h
    rw [settled_eq_ok] at hw
    have hf := (Yard.frames_reduce hw).1
    obtain ⟨⟨v, w'⟩, ht, h⟩ := bind_eq_ok.mp h
    obtain ⟨vs, hv, hl, rfl⟩ := Yard.takeSingle_eq_ok ht
    cases h
    refine ⟨w, _, fs, v, vs, _, hw, he, hv, hl, .key, ?_⟩
    simp [Yard.collect, hf, he]
  · cases h

/-- The effect of a closing bracket. Either nothing at all stands in the bracket, or its
operators are applied and the value left over is its last. -/
theorem onClose_eq_ok {time : Nat} (h : onClose env y t = .ok (z, time)) :
    ∃ f fs, y.frames = f :: fs ∧ f.collected.isArray = (t.kind == .arrayClose) ∧
      ((isBlank y f = true ∧ ∃ v, closeValue env f t none = .ok (v, time) ∧
          z = operand v y.closeFrame.2) ∨
        (isBlank y f = false ∧ y.expectsOperand = false ∧ ∃ w u vs v, y.reduce env = .ok w ∧
          w.values = u :: vs ∧ vs.length = f.base ∧
          closeValue env f t (some u) = .ok (v, time) ∧
          z = operand v ({ w with values := vs } : Yard).closeFrame.2)) := by
  simp only [onClose] at h
  split at h
  · cases h
  · rename_i f fs hf
    refine ⟨f, fs, hf, ?_⟩
    split at h
    · cases h
    · rename_i ha
      refine ⟨by simpa using ha, ?_⟩
      split at h
      · rename_i hb
        obtain ⟨⟨v, time⟩, hv, h⟩ := bind_eq_ok.mp h
        cases h
        exact .inl ⟨hb, v, hv, rfl⟩
      · rename_i hb
        split at h
        · cases h
        · rename_i he
          obtain ⟨w, hw, h⟩ := bind_eq_ok.mp h
          obtain ⟨⟨u, w'⟩, ht, h⟩ := bind_eq_ok.mp h
          obtain ⟨vs, hu, hl, rfl⟩ := Yard.takeSingle_eq_ok ht
          obtain ⟨⟨v, time⟩, hv, h⟩ := bind_eq_ok.mp h
          cases h
          exact .inr ⟨by simpa using hb, by simpa using he, w, u, vs, v, settled_eq_ok.mp hw, hu,
            hl, hv, rfl⟩

end Run
end Formula
