import Formula.Proofs.Ancestry

/-! Properties of values that an evaluation hands on. Where names, functions, operators and arrays
give values with the property for values with the property, everything on the stacks has it, and so
does the result. -/
namespace Formula

/-- What comes out has the property if what goes in has it. -/
structure Environment.HandsOn (env : Environment) (P : Value → Prop) : Prop where
  null : P .null
  name : ∀ {n v}, env.resolve n = .ok v → P v
  call : ∀ {n args v}, (∀ a ∈ args, P a) → env.call n args = .ok v → P v
  unary : ∀ {op v r}, P v → env.prefixRule op v = .ok r → P r
  binary : ∀ {op u v r}, P u → P v → env.infixRule op u v = .ok r → P r
  noEntries : P (.array [])
  entry : ∀ {es key v fs}, P (.array es) → (∀ k ∈ key, P k) → P v →
    Entries.store es key v = .ok fs → P (.array fs)

/-- Everything that a bracket has collected has the property. -/
def Collected.All (P : Value → Prop) : Collected → Prop
  | .group => True
  | .call _ args => ∀ a ∈ args, P a
  | .array es key => P (.array es) ∧ ∀ k ∈ key, P k

/-- Every value on the stacks has the property. -/
structure Yard.All (P : Value → Prop) (y : Yard) : Prop where
  values : ∀ v ∈ y.values, P v
  frames : ∀ f ∈ y.frames, f.collected.All P

variable {env : Environment} {P : Value → Prop}

namespace Environment.HandsOn

variable {floor : Nat} {ready : Kind → Bool} {op : Kind} {s : Span} {ops ops' : List Stacked}
  {vs ws : List Value} {y z w : Yard} {t : Token} {c d : Course}

theorem performs (h : env.HandsOn P) (hv : ∀ v ∈ vs, P v)
    (hw : Yard.Performs env floor op vs ws) : ∀ v ∈ ws, P v := by
  cases hw with
  | one _ _ hr =>
    rw [List.forall_mem_cons] at hv ⊢
    exact ⟨h.unary hv.1 hr, hv.2⟩
  | two _ _ hr =>
    rw [List.forall_mem_cons, List.forall_mem_cons] at hv
    rw [List.forall_mem_cons]
    exact ⟨h.binary hv.2.1 hv.1 hr, hv.2.2⟩

theorem applies (h : env.HandsOn P) {a b : List Stacked × List Value} (ha : ∀ v ∈ a.2, P v)
    (hab : Relation.ReflTransGen (Yard.Applies env floor) a b) : ∀ v ∈ b.2, P v := by
  induction hab with
  | refl => exact ha
  | tail _ hstep ih =>
    obtain ⟨hws⟩ := hstep
    exact h.performs ih (Yard.performs_of_applyOperator hws)

theorem applyWhile (h : env.HandsOn P) (hv : ∀ v ∈ vs, P v)
    (hw : Yard.applyWhile env floor ready ops vs = .ok (ops', ws)) : ∀ v ∈ ws, P v :=
  h.applies hv (Yard.applies_of_applyWhile hw).1

theorem reduce (h : env.HandsOn P) (hy : y.All P) (hz : y.reduce env = .ok z) : z.All P := by
  obtain ⟨⟨ops, vs⟩, hw, rfl⟩ := map_eq_ok.mp hz
  exact ⟨h.applyWhile hy.values hw, hy.frames⟩

theorem pushBinary (h : env.HandsOn P) (hy : y.All P) (hz : y.pushBinary env op s = .ok z) :
    z.All P := by
  obtain ⟨⟨ops, vs⟩, hw, rfl⟩ := map_eq_ok.mp hz
  exact ⟨h.applyWhile hy.values hw, hy.frames⟩

theorem receives (h : env.HandsOn P) {k : Kind} {v : Value} {before after : Collected}
    (hr : before.Receives k v after) (hb : before.All P) (hv : P v) : after.All P := by
  cases hr with
  | argument =>
    intro a ha
    rcases List.mem_append.mp ha with ha | ha
    · exact hb a ha
    · exact List.mem_singleton.mp ha ▸ hv
  | entry hs => exact ⟨h.entry hb.1 hb.2 hv hs, by simp⟩
  | key => exact ⟨hb.1, by simpa using hv⟩

theorem separated (h : env.HandsOn P) (hy : y.All P) {k : Kind} (hz : Run.Separated env y k z) :
    z.All P := by
  obtain ⟨-, w, f, fs, v, vs, collected, hw, hf, hv, -, hr, rfl⟩ := hz
  have hvalues := (h.reduce hy hw).values
  have hframes := hy.frames
  rw [hv, List.forall_mem_cons] at hvalues
  rw [hf, List.forall_mem_cons] at hframes
  exact ⟨hvalues.2, List.forall_mem_cons.mpr ⟨h.receives hr hframes.1 hvalues.1, hframes.2⟩⟩

theorem closeValue (h : env.HandsOn P) {f : Frame} {last : Option Value} {q : Value × Nat}
    (hf : f.collected.All P) (hl : ∀ v ∈ last, P v)
    (hq : Run.closeValue env f t last = .ok q) : P q.1 := by
  unfold Run.closeValue at hq
  split at hq
  · cases hq
    cases last with
    | none => exact h.null
    | some v => exact hl v rfl
  · rename_i name args hcall
    rw [hcall] at hf
    obtain ⟨v, hv, rfl⟩ := map_eq_ok.mp (mapError_eq_ok.mp hq)
    refine h.call (fun a ha => ?_) hv
    rcases List.mem_append.mp ha with ha | ha
    · exact hf a ha
    · exact hl a (Option.mem_toList.mp ha)
  · rename_i es key harray
    rw [harray] at hf
    split at hq
    · cases hq
      exact hf.1
    · rename_i v
      obtain ⟨es, hes, rfl⟩ := map_eq_ok.mp (mapError_eq_ok.mp hq)
      exact h.entry hf.1 hf.2 (hl v rfl) hes

theorem onClose (h : env.HandsOn P) (hy : y.All P) {time : Nat}
    (hz : Run.onClose env y t = .ok (z, time)) : z.All P := by
  -- the bracket goes with what it has collected, and its value comes
  have hclose : ∀ {w : Yard} {v : Value}, w.All P → P v →
      (Run.operand v w.closeFrame.2).All P := by
    intro w v hw hv
    exact ⟨List.forall_mem_cons.mpr ⟨hv, hw.values⟩,
      fun f hf => hw.frames f (List.mem_of_mem_tail hf)⟩
  obtain ⟨f, fs, hf, -, ⟨-, v, hv, rfl⟩ | ⟨-, -, w, u, vs, v, hw, hu, -, hv, rfl⟩⟩ :=
    Run.onClose_eq_ok hz
  · have hfs := hy.frames f (by rw [hf]; exact List.mem_cons_self)
    exact hclose hy (h.closeValue hfs (by simp) hv)
  · have hfs := hy.frames f (by rw [hf]; exact List.mem_cons_self)
    have hall := h.reduce hy hw
    have hvalues := hall.values
    rw [hu, List.forall_mem_cons] at hvalues
    refine hclose ⟨hvalues.2, hall.frames⟩ (h.closeValue hfs ?_ hv)
    simpa using hvalues.1

/-- One token keeps the property of everything on the stacks. -/
theorem step (h : env.HandsOn P) (hc : c.yard.All P) (ht : P t.value)
    (hd : c.step env t = .ok d) : d.yard.All P := by
  cases Course.moves_of_step hd with
  | operand _ _ _ hv =>
    refine ⟨List.forall_mem_cons.mpr ⟨?_, hc.values⟩, hc.frames⟩
    rcases hv with rfl | hv
    · exact ht
    · exact h.name hv
  | name => exact hc
  | called _ _ hz =>
    rw [(Course.onOpen_eq_ok.mp hz).2]
    exact ⟨hc.values, List.forall_mem_cons.mpr ⟨fun _ ha => absurd ha List.not_mem_nil, hc.frames⟩⟩
  | opened _ _ hcollected hz =>
    rw [(Course.onOpen_eq_ok.mp hz).2]
    refine ⟨hc.values, List.forall_mem_cons.mpr ⟨?_, hc.frames⟩⟩
    rcases hcollected with rfl | rfl
    · trivial
    · exact ⟨h.noEntries, by simp⟩
  | separated _ _ hz => exact h.separated hc hz
  | closed _ _ hz => exact h.onClose hc hz
  | prefixed => exact ⟨hc.values, hc.frames⟩
  | operation _ _ _ hw =>
    have hall := h.pushBinary hc hw
    exact ⟨hall.values, hall.frames⟩

variable {r q : Run} {ts : List Token}

theorem steps (h : env.HandsOn P) (hr : r.yard.All P) (ht : ∀ t ∈ ts, P t.value)
    (hs : r.steps env ts = .ok q) : q.yard.All P := by
  induction ts generalizing r with
  | nil =>
    cases hs
    exact hr
  | cons t ts ih =>
    rw [List.forall_mem_cons] at ht
    rw [Run.steps_cons] at hs
    obtain ⟨p, hp, hs⟩ := bind_eq_ok.mp hs
    have hstep : p.course.yard.All P := h.step hr ht.1 (Run.course_of_step hp)
    exact ih hstep ht.2 hs

/-- Wherever a run gets to, everything on its stacks has the property. -/
theorem run (h : env.HandsOn P) (ht : ∀ t ∈ ts, P t.value)
    (hs : Run.start.steps env ts = .ok q) : q.yard.All P := by
  have hstart : Run.start.yard.All P := ⟨by rintro _ ⟨⟩, by rintro _ ⟨⟩⟩
  exact h.steps hstart ht hs

theorem finish (h : env.HandsOn P) (hr : r.yard.All P) {v : Value}
    (hv : r.finish env t = .ok v) : P v := by
  simp only [Run.finish] at hv
  split at hv
  · cases hv
  · cases hv
  · split at hv
    · cases hv
    · obtain ⟨y, hy, hv⟩ := bind_eq_ok.mp hv
      have hvalues := (h.reduce hr (Run.settled_eq_ok.mp hy)).values
      split at hv
      · rename_i u hu
        cases hv
        rw [hu] at hvalues
        exact hvalues v List.mem_cons_self
      · cases hv

/-- The value of an expression has the property. -/
theorem evaluateTokens (h : env.HandsOn P) (ht : ∀ t ∈ ts, P t.value) {v : Value}
    (hv : Formula.evaluateTokens env ts = .ok v) : P v := by
  unfold Formula.evaluateTokens at hv
  split at hv
  · cases hv
  · obtain ⟨q, hq, hv⟩ := bind_eq_ok.mp hv
    exact h.finish (h.run ht hq) hv

end Environment.HandsOn

end Formula
