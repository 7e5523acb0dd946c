import Formula.Proofs.Discipline

/-! Places do not matter to values. They travel with tokens, waiting operators and open brackets,
and a step without them does the same, but for the faults that tell them. Main statement: tokens
that say the same have the same value, wherever they stand. -/
namespace Formula

/-- Both fail, or the second gives what `f` makes of what the first gives. -/
def Matches {ε δ α β : Type} (f : α → β) (x : Except ε α) (y : Except δ β) : Prop :=
  x.toOption.map f = y.toOption

namespace Matches

variable {ε ε' δ δ' α β α' β' : Type} {f : α → β} {g : α' → β'} {x : Except ε α} {y : Except δ β}

theorem ok {a : α} {b : β} (h : f a = b) : Matches f (.ok a : Except ε α) (.ok b : Except δ β) :=
  congrArg some h

theorem error (e : ε) (e' : δ) : Matches f (.error e) (.error e') := rfl

theorem bind {k : α → Except ε α'} {l : β → Except δ β'} (h : Matches f x y)
    (hk : ∀ a, Matches g (k a) (l (f a))) : Matches g (x >>= k) (y >>= l) := by
  cases x with
  | error e =>
    cases y with
    | error e' => exact .error e e'
    | ok b => cases h
  | ok a =>
    cases y with
    | error e' => cases h
    | ok b =>
      obtain rfl : f a = b := Option.some.inj h
      exact hk a

theorem map {k : α → α'} {l : β → β'} (h : Matches f x y) (hk : ∀ a, g (k a) = l (f a)) :
    Matches g (x.map k) (y.map l) := by
  cases x with
  | error e =>
    cases y with
    | error e' => exact .error e e'
    | ok b => cases h
  | ok a =>
    cases y with
    | error e' => cases h
    | ok b =>
      obtain rfl : f a = b := Option.some.inj h
      exact .ok (hk a)

theorem mapError {k : ε → ε'} {l : δ → δ'} (h : Matches f x y) :
    Matches f (x.mapError k) (y.mapError l) := by
  cases x <;> cases y <;> exact h

theorem same (x : Except ε α) : Matches id x x := by
  cases x <;> rfl

theorem ok_iff {x y : Except ε α} (h : Matches id x y) (a : α) : x = .ok a ↔ y = .ok a := by
  cases x <;> cases y <;> simp_all [Matches, Except.toOption]

end Matches

/-- A token without its place. -/
def Token.unplaced (t : Token) : Token := { t with span := default }

def Stacked.unplaced : Stacked → Stacked
  | .operator op _ => .operator op default
  | .marker => .marker

def Frame.unplaced (f : Frame) : Frame := { f with opened := default }

/-- The stacks without any place. -/
def Yard.unplaced (y : Yard) : Yard :=
  { y with operators := y.operators.map Stacked.unplaced, frames := y.frames.map Frame.unplaced }

def Run.unplaced (r : Run) : Run :=
  { r with yard := r.yard.unplaced, awaiting := r.awaiting.map Token.unplaced }

namespace Yard

variable {env : Environment} {y : Yard} {floor base : Nat} {vs : List Value}

theorem popOperand_at (s s' : Span) :
    popOperand floor s' vs = (popOperand floor s vs).mapError fun _ => .unbalanced 0 s' := by
  cases vs with
  | nil => rfl
  | cons v vs => cases h : reaches floor vs <;> simp [popOperand, h]

theorem applyOperator_unplaced (op : Kind) (s s' : Span) :
    Matches id (applyOperator env floor op s vs) (applyOperator env floor op s' vs) := by
  simp only [applyOperator, popOperand_at s s']
  cases popOperand floor s vs with
  | error e => exact .error _ _
  | ok p =>
    obtain ⟨v, ws⟩ := p
    simp only [mapError_ok]
    split
    · cases env.prefixRule op v with
      | error e => exact .error _ _
      | ok r => exact .ok rfl
    · cases popOperand floor s ws with
      | error e => exact .error _ _
      | ok q =>
        obtain ⟨u, us⟩ := q
        simp only [mapError_ok]
        cases env.infixRule op u v with
        | error e => exact .error _ _
        | ok r => exact .ok rfl

theorem applyWhile_unplaced (ready : Kind → Bool) (ops : List Stacked) :
    Matches (Prod.map (List.map Stacked.unplaced) id) (applyWhile env floor ready ops vs)
      (applyWhile env floor ready (ops.map Stacked.unplaced) vs) := by
  induction ops generalizing vs with
  | nil => exact .ok rfl
  | cons o ops ih =>
    cases o with
    | marker => exact .ok rfl
    | operator op s =>
      cases hr : ready op with
      | false => simpa [applyWhile, Stacked.unplaced, hr] using .ok rfl
      | true =>
        rw [List.map_cons, Stacked.unplaced, applyWhile_cons hr, applyWhile_cons hr]
        exact (applyOperator_unplaced op s default).mapError.bind fun _ => ih

@[simp] theorem floor_unplaced (y : Yard) : y.unplaced.floor = y.floor := by
  cases h : y.frames <;> simp [unplaced, floor, h, Frame.unplaced]

theorem reduce_unplaced : Matches unplaced (y.reduce env) (y.unplaced.reduce env) := by
  rw [reduce, reduce, floor_unplaced]
  exact (applyWhile_unplaced _ y.operators).map fun _ => rfl

theorem pushBinary_unplaced (op : Kind) (s : Span) :
    Matches unplaced (y.pushBinary env op s) (y.unplaced.pushBinary env op default) := by
  rw [pushBinary, pushBinary, floor_unplaced]
  exact (applyWhile_unplaced _ y.operators).map fun _ => rfl

theorem takeSingle_unplaced (s s' : Span) :
    Matches (Prod.map id unplaced) (y.takeSingle base s) (y.unplaced.takeSingle base s') := by
  cases h : y.values with
  | nil => simpa [takeSingle, unplaced, h] using .error _ _
  | cons v vs =>
    by_cases hb : vs.length = base
    · simpa [takeSingle, unplaced, h, hb] using .ok rfl
    · simpa [takeSingle, unplaced, h, hb] using .error _ _

theorem collect_unplaced (collected : Collected) (y : Yard) :
    ({ y.collect collected with expectsOperand := true } : Yard).unplaced =
      { y.unplaced.collect collected with expectsOperand := true } := by
  obtain ⟨ops, vs, frames, expects⟩ := y
  cases frames <;> rfl

theorem closeFrame_unplaced (y : Yard) : y.closeFrame.2.unplaced = y.unplaced.closeFrame.2 := by
  obtain ⟨ops, vs, frames, expects⟩ := y
  cases ops with
  | nil => simp [closeFrame, unplaced]
  | cons o ops => cases o <;> simp [closeFrame, unplaced, Stacked.unplaced]

end Yard

namespace Run

variable {env : Environment} {y : Yard} {r : Run} {t : Token}

theorem settled_unplaced {x x' : Except Yard.Halted Yard} (h : Matches Yard.unplaced x x') :
    Matches Yard.unplaced (settled x) (settled x') := h.mapError

theorem requireOperand_unplaced (y : Yard) (t : Token) :
    Matches id (requireOperand y t) (requireOperand y.unplaced t.unplaced) := by
  cases h : y.expectsOperand <;> simp [requireOperand, Yard.unplaced, h, Matches, Except.toOption]

theorem requireOperator_unplaced (y : Yard) (t : Token) :
    Matches id (requireOperator y t) (requireOperator y.unplaced t.unplaced) := by
  cases h : y.expectsOperand <;> simp [requireOperator, Yard.unplaced, h, Matches, Except.toOption]

theorem checkDepth_unplaced (limits : Limits) (y : Yard) (t : Token) :
    Matches id (checkDepth limits y t) (checkDepth limits y.unplaced t.unplaced) := by
  by_cases h : limits.depth < y.frames.length + 1 <;>
    simp [checkDepth, Yard.unplaced, h, Matches, Except.toOption]

theorem onValue_unplaced {v v' : Except Fault Value} (h : Matches id v v') :
    Matches Yard.unplaced (onValue y t v) (onValue y.unplaced t.unplaced v') :=
  (requireOperand_unplaced y t).bind fun _ => h.bind fun _ => .ok rfl

theorem onOpen_unplaced (limits : Limits) (collected : Collected) :
    Matches Yard.unplaced (onOpen limits y t collected)
      (onOpen limits y.unplaced t.unplaced collected) :=
  (requireOperand_unplaced y t).bind fun _ => (checkDepth_unplaced limits y t).bind fun _ => .ok rfl

theorem onPrefix_unplaced : Matches Yard.unplaced (onPrefix y t) (onPrefix y.unplaced t.unplaced) :=
  (requireOperand_unplaced y t).bind fun _ => .ok rfl

theorem onInfix_unplaced :
    Matches Yard.unplaced (onInfix env y t) (onInfix env y.unplaced t.unplaced) :=
  (requireOperator_unplaced y t).bind fun _ =>
    (settled_unplaced (Yard.pushBinary_unplaced t.kind t.span)).bind fun _ => .ok rfl

theorem onComma_unplaced :
    Matches Yard.unplaced (onComma env y t) (onComma env y.unplaced t.unplaced) := by
  refine (requireOperator_unplaced y t).bind fun _ =>
    (settled_unplaced Yard.reduce_unplaced).bind fun w => ?_
  rw [show w.unplaced.frames = w.frames.map Frame.unplaced from rfl]
  cases w.frames with
  | nil => exact .error _ _
  | cons f fs =>
    obtain ⟨collected, base, opened⟩ := f
    cases collected with
    | group => exact .error _ _
    | call name args =>
      exact (Yard.takeSingle_unplaced t.span default).bind fun p =>
        .ok (Yard.collect_unplaced _ p.2)
    | array es key =>
      exact (Yard.takeSingle_unplaced t.span default).bind fun p =>
        (Matches.same _).mapError.bind fun es' => .ok (Yard.collect_unplaced _ p.2)

theorem onArrow_unplaced :
    Matches Yard.unplaced (onArrow env y t) (onArrow env y.unplaced t.unplaced) := by
  refine (requireOperator_unplaced y t).bind fun _ => ?_
  rw [show y.unplaced.frames = y.frames.map Frame.unplaced from rfl]
  cases y.frames with
  | nil => exact .error _ _
  | cons f fs =>
    obtain ⟨collected, base, opened⟩ := f
    cases collected with
    | group | call => exact .error _ _
    | array es key =>
      cases key with
      | some v => exact .error _ _
      | none =>
        exact (settled_unplaced Yard.reduce_unplaced).bind fun w =>
          (Yard.takeSingle_unplaced t.span default).bind fun p => .ok (Yard.collect_unplaced _ p.2)

theorem isBlank_unplaced (y : Yard) (f : Frame) :
    isBlank y.unplaced f.unplaced = isBlank y f := by
  obtain ⟨ops, vs, frames, expects⟩ := y
  cases ops with
  | nil => rfl
  | cons o ops => cases o <;> rfl

theorem closeValue_unplaced (f : Frame) (last : Option Value) :
    Matches id (closeValue env f t last) (closeValue env f.unplaced t.unplaced last) := by
  obtain ⟨collected, base, opened⟩ := f
  cases collected with
  | group => exact .ok rfl
  | call name args => exact (Matches.same _).mapError
  | array es key =>
    cases last with
    | none => exact .ok rfl
    | some v => exact (Matches.same _).mapError

theorem operand_unplaced (v : Value) (y : Yard) :
    (operand v y).unplaced = operand v y.unplaced := rfl

theorem onClose_unplaced :
    Matches (Prod.map Yard.unplaced id) (onClose env y t) (onClose env y.unplaced t.unplaced) := by
  unfold onClose
  rw [show y.unplaced.frames = y.frames.map Frame.unplaced from rfl]
  cases y.frames with
  | nil => exact .error _ _
  | cons f fs =>
    simp only [List.map_cons, isBlank_unplaced]
    rw [show f.unplaced.collected = f.collected from rfl,
      show t.unplaced.kind = t.kind from rfl,
      show y.unplaced.expectsOperand = y.expectsOperand from rfl]
    split
    · exact .error _ _
    · split
      · refine (closeValue_unplaced f none).bind fun p => .ok ?_
        simp only [Prod.map, operand_unplaced, Yard.closeFrame_unplaced, id]
      · split
        · exact .error _ _
        · refine (settled_unplaced Yard.reduce_unplaced).bind fun w =>
            (Yard.takeSingle_unplaced t.span default).bind fun p =>
              (closeValue_unplaced f (some p.1)).bind fun q => .ok ?_
          simp only [Prod.map, operand_unplaced, Yard.closeFrame_unplaced, id]

theorem process_unplaced :
    Matches unplaced (r.process env t) (r.unplaced.process env t.unplaced) := by
  have resolved : Matches id ((env.resolve t.name).mapError (Fault.orSpan · t.span))
      ((env.resolve t.unplaced.name).mapError (Fault.orSpan · t.unplaced.span)) :=
    (Matches.same (env.resolve t.name)).mapError
  simp only [process]
  rw [show t.unplaced.kind = t.kind from rfl]
  cases t.kind
  case number | literal => exact (onValue_unplaced (.ok rfl)).map fun _ => rfl
  case identifier => exact (onValue_unplaced resolved).map fun _ => rfl
  case functionCall => exact (requireOperand_unplaced r.yard t).map fun _ => rfl
  case parenOpen | arrayOpen => exact (onOpen_unplaced _ _).map fun _ => rfl
  case comma => exact onComma_unplaced.map fun _ => rfl
  case pairArrow => exact onArrow_unplaced.map fun _ => rfl
  case parenClose | arrayClose => exact onClose_unplaced.map fun _ => rfl
  case unaryPlus | unaryMinus | not => exact onPrefix_unplaced.map fun _ => rfl
  all_goals exact onInfix_unplaced.map fun _ => rfl

theorem step_unplaced : Matches unplaced (r.step env t) (r.unplaced.step env t.unplaced) := by
  rw [step, step, show r.unplaced.awaiting = r.awaiting.map Token.unplaced from rfl]
  cases r.awaiting with
  | none => exact (Matches.same _).bind fun _ => process_unplaced
  | some call =>
    simp only [Option.map_some, openCall]
    rw [show t.unplaced.kind = t.kind from rfl]
    split
    · exact (onOpen_unplaced _ _).map fun _ => rfl
    · exact .error _ _

theorem steps_unplaced (ts : List Token) :
    Matches unplaced (r.steps env ts) (r.unplaced.steps env (ts.map Token.unplaced)) := by
  induction ts generalizing r with
  | nil => exact .ok rfl
  | cons t ts ih =>
    rw [List.map_cons, steps_cons, steps_cons]
    exact step_unplaced.bind fun _ => ih

theorem finish_unplaced (last : Token) :
    Matches id (r.finish env last) (r.unplaced.finish env last.unplaced) := by
  rw [finish, finish, show r.unplaced.awaiting = r.awaiting.map Token.unplaced from rfl,
    show r.unplaced.yard.frames = r.yard.frames.map Frame.unplaced from rfl,
    show r.unplaced.yard.expectsOperand = r.yard.expectsOperand from rfl]
  cases r.awaiting with
  | some call => exact .error _ _
  | none =>
    cases r.yard.frames with
    | cons f fs => exact .error _ _
    | nil =>
      simp only [Option.map_none, List.map_nil]
      split
      · exact .error _ _
      · refine (settled_unplaced Yard.reduce_unplaced).bind fun y => ?_
        exact .same _

end Run

theorem evaluateTokens_unplaced (env : Environment) (ts : List Token) :
    Matches id (evaluateTokens env ts) (evaluateTokens env (ts.map Token.unplaced)) := by
  rw [evaluateTokens, evaluateTokens, List.getLast?_map]
  cases ts.getLast? with
  | none => exact .error _ _
  | some last => exact (Run.steps_unplaced ts).bind fun _ => Run.finish_unplaced last

/-- Tokens that say the same have the same value, wherever they stand. -/
theorem evaluateTokens_of_unplaced_eq {ts us : List Token}
    (h : ts.map Token.unplaced = us.map Token.unplaced) (env : Environment) (v : Value) :
    evaluateTokens env ts = .ok v ↔ evaluateTokens env us = .ok v := by
  rw [(evaluateTokens_unplaced env ts).ok_iff, (evaluateTokens_unplaced env us).ok_iff, h]

end Formula
