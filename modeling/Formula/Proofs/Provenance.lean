import Formula.Proofs.Interruption

/-! Where a fault can come from once the tokens are in order and no limit fires: names, the
operations of the language and the entries of arrays report faults of evaluating only, so that
anything else is the fault of a function or a handler of the host. -/
namespace Formula

/-- A fault of evaluating that nobody has placed. -/
structure Fault.Unplaced (e : Fault) : Prop where
  isRuntime : e.isRuntime = true
  span? : e.span? = none

/-- Only faults of evaluating come out, and their places are left to others. -/
def RuntimeOnly {α : Type} (x : Except Fault α) : Prop := ∀ e, x = .error e → e.Unplaced

namespace RuntimeOnly

variable {α β : Type}

theorem ok (a : α) : RuntimeOnly (.ok a) := by
  intro e h
  cases h

theorem error {e : Fault} (h : e.Unplaced) : RuntimeOnly (.error e : Except Fault α) := by
  rintro _ ⟨⟩
  exact h

theorem bind {x : Except Fault α} {f : α → Except Fault β} (hx : RuntimeOnly x)
    (hf : ∀ a, RuntimeOnly (f a)) : RuntimeOnly (x >>= f) := by
  intro e h
  rcases bind_eq_error.mp h with h | ⟨a, -, h⟩
  · exact hx e h
  · exact hf a e h

theorem map {x : Except Fault α} (f : α → β) (hx : RuntimeOnly x) : RuntimeOnly (x.map f) := by
  intro e h
  exact hx e (map_eq_error.mp h)

end RuntimeOnly

namespace Operation

theorem runtimeOnly_numeric (op : Kind) (v : Value) : RuntimeOnly (numeric op v) := by
  unfold numeric
  split
  · exact .ok _
  · exact .error ⟨rfl, rfl⟩

theorem runtimeOnly_arithmetic (op : Kind) (x y : Float) : RuntimeOnly (arithmetic op x y) := by
  unfold arithmetic
  repeat' split
  all_goals first | exact .ok _ | exact .error ⟨rfl, rfl⟩

theorem runtimeOnly_add (u v : Value) : RuntimeOnly (add u v) := by
  unfold add
  repeat' split
  all_goals first | exact .ok _ | exact .error ⟨rfl, rfl⟩

theorem runtimeOnly_membership (u v : Value) : RuntimeOnly (membership u v) := by
  unfold membership
  split
  · exact .ok _
  · exact .error ⟨rfl, rfl⟩

theorem runtimeOnly_applyPrefix (op : Kind) (v : Value) : RuntimeOnly (applyPrefix op v) := by
  unfold applyPrefix
  split
  case h_1 | h_2 => exact .bind (runtimeOnly_numeric _ v) fun _ => .ok _
  case h_3 => exact .ok _
  case h_4 => exact .error ⟨rfl, rfl⟩

theorem runtimeOnly_applyInfix (op : Kind) (u v : Value) : RuntimeOnly (applyInfix op u v) := by
  unfold applyInfix
  split
  case h_1 => exact runtimeOnly_add u v
  case h_2 | h_3 | h_4 | h_5 | h_6 =>
    exact .bind (runtimeOnly_numeric _ u) fun _ => .bind (runtimeOnly_numeric _ v) fun _ =>
      .bind (runtimeOnly_arithmetic _ _ _) fun _ => .ok _
  case h_16 => exact runtimeOnly_membership u v
  all_goals first | exact .ok _ | exact .error ⟨rfl, rfl⟩

end Operation

/-- No value but an array fails as a key. -/
theorem Entries.store_eq_error {es : Entries} {key : Option Value} {v : Value} {e : Fault}
    (h : es.store key v = .error e) : ∃ fs, key = some (.array fs) ∧ e = .arrayKey := by
  cases key with
  | none => cases h
  | some k =>
    have hkey : k.key = .error e := map_eq_error.mp h
    unfold Value.key at hkey
    split at hkey
    · cases hkey
      exact ⟨_, rfl, rfl⟩
    · cases hkey

theorem Entries.runtimeOnly_store (es : Entries) (key : Option Value) (v : Value) :
    RuntimeOnly (es.store key v) := by
  intro e h
  obtain ⟨fs, -, rfl⟩ := store_eq_error h
  exact ⟨rfl, rfl⟩

/-- A bracket fails to close where its call fails, or where an array is the key of its last
entry. -/
theorem Run.closeValue_eq_error {env : Environment} {f : Frame} {t : Token} {last : Option Value}
    {e : Fault} (h : closeValue env f t last = .error e) :
    (∃ name args d, f.collected = .call name args ∧
        env.call name (args ++ last.toList) = .error d ∧ e = d.orSpan f.opened) ∨
      ∃ es fs v, f.collected = .array es (some (.array fs)) ∧ last = some v ∧
        e = Fault.arrayKey.orSpan t.span := by
  unfold closeValue at h
  split at h
  · cases h
  · rename_i name args hf
    obtain ⟨d, hd, rfl⟩ := mapError_eq_error.mp h
    exact .inl ⟨name, args, d, hf, map_eq_error.mp hd, rfl⟩
  · rename_i es key hf
    split at h
    · cases h
    · rename_i v
      obtain ⟨d, hd, rfl⟩ := mapError_eq_error.mp h
      obtain ⟨fs, rfl, rfl⟩ := Entries.store_eq_error (map_eq_error.mp hd)
      exact .inr ⟨es, fs, v, hf, rfl, rfl⟩

namespace Function

theorem runtimeOnly_numericArgument (name : String) (v : Value) :
    RuntimeOnly (numericArgument name v) := by
  unfold numericArgument
  split
  · exact .ok _
  · exact .error ⟨rfl, rfl⟩

theorem runtimeOnly_numeric (name : String) (f : Float → Float) (args : List Value) :
    RuntimeOnly ((numeric name f).apply args) := by
  unfold numeric instant
  dsimp only
  split
  · exact .bind (runtimeOnly_numericArgument name _) fun _ => .ok _
  · exact .error ⟨rfl, rfl⟩

theorem runtimeOnly_power (args : List Value) : RuntimeOnly (power args) := by
  unfold power
  split
  · exact .bind (runtimeOnly_numericArgument _ _) fun _ =>
      .bind (runtimeOnly_numericArgument _ _) fun _ => .ok _
  · exact .error ⟨rfl, rfl⟩

theorem runtimeOnly_extreme (name : String) (wanted : Ordering) (args : List Value) :
    RuntimeOnly (extreme name wanted args) := by
  unfold extreme
  split
  · exact .error ⟨rfl, rfl⟩
  · exact .ok _

theorem runtimeOnly_choose (args : List Value) : RuntimeOnly (choose args) := by
  unfold choose
  split
  · exact .ok _
  · exact .ok _
  · exact .error ⟨rfl, rfl⟩

/-- The function comes from here and not from a host. -/
def InLibrary (f : Function) : Prop := ∃ name, (name, f) ∈ standard ++ builtins

theorem InLibrary.runtimeOnly {f : Function} (h : f.InLibrary) (args : List Value) :
    RuntimeOnly (f.apply args) := by
  obtain ⟨name, h⟩ := h
  simp only [standard, builtins, List.mem_append, List.mem_cons, List.not_mem_nil, or_false,
    Prod.mk.injEq] at h
  rcases h with (⟨-, rfl⟩ | ⟨-, rfl⟩ | ⟨-, rfl⟩ | ⟨-, rfl⟩) | h
  · exact runtimeOnly_choose args
  · exact .ok _
  · exact runtimeOnly_extreme _ _ args
  · exact runtimeOnly_extreme _ _ args
  · rcases h with h | h | h | h | h | h | h | h | h | h | h | h | h | h
    case inr.inr.inr.inr.inr.inr.inr.inr.inr.inr.inr.inr.inr =>
      rw [h.2]
      exact runtimeOnly_power args
    all_goals
      rw [h.2]
      first | exact runtimeOnly_numeric _ _ args | exact runtimeOnly_extreme _ _ args

end Function

@[simp] theorem Fault.syntaxKind?_orSpan (e : Fault) (s : Span) :
    (e.orSpan s).syntaxKind? = e.syntaxKind? := by
  cases e <;> rfl

@[simp] theorem Fault.isRuntime_orSpan (e : Fault) (s : Span) :
    (e.orSpan s).isRuntime = e.isRuntime := by
  cases e <;> rfl

theorem Fault.syntaxKind?_of_isRuntime {e : Fault} (h : e.isRuntime = true) :
    e.syntaxKind? = none := by
  cases e <;> first | rfl | cases h

namespace Environment

variable {env : Environment} {k : SyntaxFault} {e : Fault}

/-- A function or a handler of the host reports a fault of structure of this kind by itself. -/
inductive Reports (env : Environment) (k : SyntaxFault) : Prop
  | function {name f args e} (hf : env.functions.get? name = some f) (h : f.apply args = .error e)
      (hk : e.syntaxKind? = some k)
  | handler {op h u v e} (ho : env.operators.get? op = some h) (h : h u v = .error e)
      (hk : e.syntaxKind? = some k)

theorem not_reports_empty (k : SyntaxFault) : ¬ empty.Reports k := by
  rintro (⟨h, -, -⟩ | ⟨h, -, -⟩) <;> cases h

/-- A function or a handler of the host reports the fault by itself. -/
inductive Raises (env : Environment) (e : Fault) : Prop
  | function {name f args} (hf : env.functions.get? name = some f) (hl : ¬ f.InLibrary)
      (h : f.apply args = .error e) : Raises env e
  | handler {op h u v} (ho : env.operators.get? op = some h) (h : h u v = .error e) :
      Raises env e

/-- The fault of a function or a handler of the host, which may have got its place later. -/
inductive Hosted (env : Environment) : Fault → Prop
  | function {name f args e} (hf : env.functions.get? name = some f)
      (h : f.apply args = .error e) : Hosted env e
  | handler {op h u v e} (ho : env.operators.get? op = some h) (h : h u v = .error e) :
      Hosted env e
  | placed {d} (h : Hosted env d) (s : Span) : Hosted env (d.orSpan s)

theorem Hosted.reports (h : env.Hosted e) (hk : e.syntaxKind? = some k) : env.Reports k := by
  induction h with
  | function hf h => exact .function hf h hk
  | handler ho h => exact .handler ho h hk
  | placed _ s ih =>
    rw [Fault.syntaxKind?_orSpan] at hk
    exact ih hk

theorem not_hosted (hf : ∀ name, env.functions.get? name = none)
    (ho : ∀ op, env.operators.get? op = none) (e : Fault) : ¬ env.Hosted e := by
  intro h
  induction h with
  | function h => simp [hf] at h
  | handler h => simp [ho] at h
  | placed _ _ ih => exact ih

/-- A failing evaluation reports a fault of evaluating, or what the host reports. -/
def Originates (env : Environment) (e : Fault) : Prop := e.isRuntime = true ∨ env.Hosted e

theorem Originates.orSpan (h : env.Originates e) (s : Span) : env.Originates (e.orSpan s) := by
  rcases h with h | h
  · exact .inl (by rwa [Fault.isRuntime_orSpan])
  · exact .inr (h.placed s)

theorem Originates.reports (h : env.Originates e) (hk : e.syntaxKind? = some k) :
    env.Reports k := by
  rcases h with h | h
  · rw [Fault.syntaxKind?_of_isRuntime h] at hk
    cases hk
  · exact h.reports hk

theorem runtimeOnly_resolve (env : Environment) (name : String) :
    RuntimeOnly (env.resolve name) := by
  unfold resolve
  repeat' split
  all_goals first | exact .ok _ | exact .error ⟨rfl, rfl⟩

theorem Raises.hosted (h : env.Raises e) : env.Hosted e := by
  cases h with
  | function hf _ h => exact .function hf h
  | handler ho h => exact .handler ho h

/-- What an evaluation reports is placed by the evaluation, unless it is the host's. -/
def Reported (env : Environment) (e : Fault) : Prop := e.Unplaced ∨ env.Raises e

theorem Reported.originates (h : env.Reported e) : env.Originates e :=
  h.imp Fault.Unplaced.isRuntime Raises.hosted

theorem reported_of_call {name : String} {args : List Value}
    (h : env.call name args = .error e) : env.Reported e := by
  unfold call at h
  split at h
  · rename_i f hf
    by_cases hl : f.InLibrary
    · exact .inl (hl.runtimeOnly args e h)
    · exact .inr (.function hf hl h)
  · cases h
    exact .inl ⟨rfl, rfl⟩

theorem reported_of_prefixRule {op : Kind} {v : Value} (h : env.prefixRule op v = .error e) :
    env.Reported e := by
  unfold prefixRule at h
  split at h
  · rename_i handler ho
    exact .inr (.handler ho h)
  · exact .inl (Operation.runtimeOnly_applyPrefix op v e h)

theorem reported_of_infixRule {op : Kind} {u v : Value} (h : env.infixRule op u v = .error e) :
    env.Reported e := by
  unfold infixRule at h
  split at h
  · rename_i handler ho
    exact .inr (.handler ho h)
  · exact .inl (Operation.runtimeOnly_applyInfix op u v e h)

theorem Fails.reported {op : Kind} {vs : List Value} (h : env.Fails op vs e) : env.Reported e := by
  cases h with
  | one _ h => exact reported_of_prefixRule h
  | two _ h => exact reported_of_infixRule h

theorem OperatorFault.originates (h : env.OperatorFault e) : env.Originates e := by
  cases h with
  | one h => exact (reported_of_prefixRule h).originates.orSpan _
  | two h => exact (reported_of_infixRule h).originates.orSpan _

theorem originates_of_closeValue {f : Frame} {t : Token} {last : Option Value}
    (h : Run.closeValue env f t last = .error e) : env.Originates e := by
  rcases Run.closeValue_eq_error h with ⟨name, args, d, -, hd, rfl⟩ | ⟨es, fs, v, -, -, rfl⟩
  · exact (reported_of_call hd).originates.orSpan _
  · exact .orSpan (.inl rfl) _

end Environment

variable {env : Environment} {e : Fault} {k : SyntaxFault}

theorem Yard.Interrupted.originates {y : Yard} {t : Token} (h : y.Interrupted env t e) :
    env.Originates e := by
  cases h with
  | name _ _ h =>
    exact Environment.Originates.orSpan (.inl (env.runtimeOnly_resolve _ _ h).isRuntime) _
  | operation _ _ _ ho => exact ho.originates
  | expression _ _ _ ho => exact ho.originates
  | key _ _ _ _ _ h =>
    exact Environment.Originates.orSpan (.inl (Entries.runtimeOnly_store _ _ _ _ h).isRuntime) _
  | emptyClose _ _ _ _ h => exact Environment.originates_of_closeValue h
  | close _ _ _ _ _ _ h => exact Environment.originates_of_closeValue h

/-- Limits report faults of their own, of which nothing else is known. -/
theorem Run.Limited.details? {limits : Limits} {r : Run} {t : Token} (h : r.Limited limits t e) :
    e.details? = none := by
  cases h with
  | budget _ h =>
    simp only [checkBudget] at h
    split at h
    · cases h
      rfl
    · split at h <;> cases h
      rfl
  | bracket _ _ _ _ h | call _ _ _ h =>
    unfold checkDepth at h
    split at h <;> cases h
    rfl

theorem Run.Limited.syntaxKind? {limits : Limits} {r : Run} {t : Token} (h : r.Limited limits t e) :
    e.syntaxKind? = none := by
  have hdetails := h.details?
  cases e <;> first | rfl | cases hdetails

theorem Run.Interrupted.reports {r : Run} {t : Token} (h : r.Interrupted env t e)
    (hk : e.syntaxKind? = some k) : env.Reports k := by
  cases h with
  | limit h =>
    rw [h.syntaxKind?] at hk
    cases hk
  | evaluation _ _ h => exact h.originates.reports hk

/-- An interruption that looks like a fault of structure is the fault of the host. -/
theorem Interrupted.reports {ts : List Token} (h : Interrupted env ts e)
    (hk : e.syntaxKind? = some k) : env.Reports k := by
  cases h with
  | token _ _ h => exact h.reports hk
  | finish _ _ _ _ _ _ ho => exact ho.originates.reports hk

end Formula
