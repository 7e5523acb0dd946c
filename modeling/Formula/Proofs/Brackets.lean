import Formula.Proofs.Yielding

/-! Expressions in brackets. Inside a bracket the operators stop at its marker, so that an
expression puts one value there; the token behind it takes that value, and a closing bracket
leaves the stacks as an operand would. -/
namespace Formula
open Course Climbing

/-- Nothing behind can belong to these tokens, and the tree is theirs: it is what is read of them,
and its value is what they put on stacks without a waiting operator. -/
structure Spells (es : List Token) (x : Tree) : Prop where
  parses : ∀ rest, nextLevel rest = 0 → outcome (parse 1 (es ++ rest)) = some (x, rest)
  follows : ∀ env y, y.Waits → y.Reduced → Follows env x es 0 y

namespace Yard

/-- The stacks inside a bracket opened at `s`, where an operand may begin. -/
def inside (c : Collected) (s : Span) (y : Yard) : Yard :=
  { y.openFrame c s with expectsOperand := true }

variable {env : Environment} {y : Yard} {c : Collected} {s : Span}

theorem waits_inside : (y.inside c s).Waits := ⟨rfl, Nat.le_refl _⟩

theorem reduced_inside : (y.inside c s).Reduced := by
  intro op s ops h
  cases h

/-- The one value above the bracket is there to be taken. -/
theorem takeSingle_inside (v : Value) (p : Span) :
    (Run.operand v (y.inside c s)).takeSingle y.values.length p =
      .ok (v, { y.inside c s with expectsOperand := false }) := if_pos rfl

theorem waits_empty : empty.Waits := ⟨rfl, Nat.le_refl _⟩

theorem reduced_empty : empty.Reduced := by
  intro op s ops h
  cases h

end Yard

namespace Spells

variable {env : Environment} {es : List Token} {x : Tree} {y : Yard} {t : Token}

/-- With nothing to give way, the value of an expression is what the rest gets. -/
theorem runs {β : Type} (h : Spells es x) (hy : y.Waits) (hr : y.Reduced)
    {rest : Course → Except Fault β} {f : Yard → Except Fault β}
    (hrest : Resumes env 0 y.frames rest f) :
    (on y).steps env es >>= rest = x.eval env >>= fun v => f (Run.operand v y) := by
  rw [h.follows env y hy hr β rest f hrest]
  cases x.eval env with
  | error e => rfl
  | ok v =>
    have hv : (Run.operand v y).yield env 0 = .ok (Run.operand v y) :=
      Yard.yield_of_guarded (hr.guarded 0)
    rw [ok_bind, ok_bind, hv, ok_bind]

/-- The token behind an expression in a bracket takes its value. -/
theorem token (h : Spells es x) {c : Collected} {s : Span} (g : Value → Yard → Except Fault Course)
    (ht : ∀ w : Yard, w.expectsOperand = false → w.frames = (y.inside c s).frames →
      (on w).step env t = w.yield env 0 >>= fun z =>
        z.takeSingle y.values.length t.span >>= fun q => g q.1 q.2) (bs : List Token) :
    (on (y.inside c s)).steps env (es ++ t :: bs) = x.eval env >>= fun v =>
      g v { y.inside c s with expectsOperand := false } >>= fun d => d.steps env bs := by
  have hrest : Resumes env 0 (y.inside c s).frames (fun d => d.steps env (t :: bs))
      (fun w => w.takeSingle y.values.length t.span >>= fun q => g q.1 q.2 >>= fun d =>
        d.steps env bs) := by
    intro w hw hf
    simp only [steps_cons, ht w hw hf, bind_bind]
  have hruns := h.runs Yard.waits_inside Yard.reduced_inside hrest
  simp only [Yard.takeSingle_inside, ok_bind] at hruns
  rw [steps_append]
  exact hruns

/-- A comma ends an argument. -/
theorem argument (h : Spells es x) (ht : t.kind = .comma) (name : String) (args : List Value)
    (s : Span) (bs : List Token) :
    (on (y.inside (.call name args) s)).steps env (es ++ t :: bs) =
      x.eval env >>= fun v => (on (y.inside (.call name (args ++ [v])) s)).steps env bs := by
  refine h.token (fun v w =>
    .ok (on { w.collect (.call name (args ++ [v])) with expectsOperand := true })) ?_ bs
  intro w hw hf
  simp only [step, on, process, ht]
  rw [Run.onComma, Run.requireOperator_ok hw, ok_bind, Yard.settled_reduce, map_bind]
  apply bind_congr
  intro z hz
  have hframes := (Yard.frames_yield hz).trans hf
  simp only [hframes, Yard.inside, Yard.openFrame, map_bind]
  rfl

/-- A comma ends an entry and stores it. -/
theorem entry (h : Spells es x) (ht : t.kind = .comma) (fs : Entries) (key : Option Value)
    (s : Span) (bs : List Token) :
    (on (y.inside (.array fs key) s)).steps env (es ++ t :: bs) =
      x.eval env >>= fun v =>
        (Entries.store fs key v).mapError (Fault.orSpan · t.span) >>= fun fs =>
          (on (y.inside (.array fs none) s)).steps env bs := by
  refine (h.token (fun v w =>
    (Entries.store fs key v).mapError (Fault.orSpan · t.span) >>= fun fs =>
      .ok (on { w.collect (.array fs none) with expectsOperand := true })) ?_ bs).trans ?_
  · intro w hw hf
    simp only [step, on, process, ht]
    rw [Run.onComma, Run.requireOperator_ok hw, ok_bind, Yard.settled_reduce, map_bind]
    apply bind_congr
    intro z hz
    have hframes := (Yard.frames_yield hz).trans hf
    simp only [hframes, Yard.inside, Yard.openFrame, map_bind]
    rfl
  · simp only [bind_bind]
    rfl

/-- An arrow ends a key. -/
theorem key (h : Spells es x) (ht : t.kind = .pairArrow) (fs : Entries) (s : Span)
    (bs : List Token) :
    (on (y.inside (.array fs none) s)).steps env (es ++ t :: bs) =
      x.eval env >>= fun v => (on (y.inside (.array fs (some v)) s)).steps env bs := by
  refine h.token (fun v w =>
    .ok (on { w.collect (.array fs (some v)) with expectsOperand := true })) ?_ bs
  intro w hw hf
  simp only [step, on, process, ht]
  rw [Run.onArrow, Run.requireOperator_ok hw, ok_bind, hf]
  simp only [Yard.inside, Yard.openFrame, Yard.settled_reduce, map_bind]
  rfl

/-- A closing bracket makes an operand of the last value in it. -/
theorem close (h : Spells es x) {c : Collected} (ht : t.kind.isCloser = true)
    (hc : c.isArray = (t.kind == .arrayClose)) (s : Span) :
    (on (y.inside c s)).steps env (es ++ [t]) =
      x.eval env >>= fun v =>
        (Run.closeValue env ⟨c, y.values.length, s⟩ t (some v)).map fun q =>
          on (Run.operand q.1 y) := by
  refine (h.token (fun v w => (Run.closeValue env ⟨c, y.values.length, s⟩ t (some v)).map fun q =>
    on (Run.operand q.1 w.closeFrame.2)) ?_ []).trans ?_
  · intro w hw hf
    have hblank : ∀ f, Run.isBlank w f = false := by
      intro f
      simp [Run.isBlank, hw]
    rw [step_closer ht, Run.onClose, hf]
    simp only [Yard.inside, Yard.openFrame, hc, bne_self_eq_false, hblank, hw, Bool.false_eq_true,
      ↓reduceIte, Yard.settled_reduce, map_bind]
    apply bind_congr
    intro z _
    apply bind_congr
    intro q _
    cases Run.closeValue env ⟨c, y.values.length, s⟩ t (some q.1) with
    | error e => rfl
    | ok u => rfl
  · simp only [bind_map, steps_nil]
    apply bind_congr
    intro v _
    cases Run.closeValue env ⟨c, y.values.length, s⟩ t (some v) with
    | error e => rfl
    | ok u => rfl

end Spells

section

variable {env : Environment} {y : Yard} {t : Token}

theorem step_parenOpen (ht : t.kind = .parenOpen) (hy : y.expectsOperand = true) :
    (on y).step env t = .ok (on (y.inside .group t.span)) := by
  simp only [step, on, process, ht, onOpen, Run.requireOperand_ok hy]
  rfl

theorem step_arrayOpen (ht : t.kind = .arrayOpen) (hy : y.expectsOperand = true) :
    (on y).step env t = .ok (on (y.inside (.array [] none) t.span)) := by
  simp only [step, on, process, ht, onOpen, Run.requireOperand_ok hy]
  rfl

theorem closeValue_call (name : String) (args : List Value) (b : Nat) (s : Span)
    (last : Option Value) :
    ((Run.closeValue env ⟨.call name args, b, s⟩ t last).map fun q => on (Run.operand q.1 y)) =
      ((env.call name (args ++ last.toList)).mapError (Fault.orSpan · s)).map fun v =>
        on (Run.operand v y) := by
  simp only [Run.closeValue]
  cases env.call name (args ++ last.toList) with
  | error e => rfl
  | ok v => rfl

theorem closeValue_array (es : Entries) (key : Option Value) (b : Nat) (s : Span) (v : Value) :
    ((Run.closeValue env ⟨.array es key, b, s⟩ t (some v)).map fun q => on (Run.operand q.1 y)) =
      ((Entries.store es key v).mapError (Fault.orSpan · t.span)).map fun es =>
        on (Run.operand (.array es) y) := by
  simp only [Run.closeValue]
  cases Entries.store es key v with
  | error e => rfl
  | ok es => rfl

/-- A name and its parenthesis open the bracket of a call. -/
theorem steps_functionCall {f o : Token} (hf : f.kind = .functionCall) (ho : o.kind = .parenOpen)
    (hy : y.expectsOperand = true) (bs : List Token) :
    (on y).steps env (f :: o :: bs) = (on (y.inside (.call f.name []) f.span)).steps env bs := by
  have h₁ : (on y).step env f = .ok ⟨y, some f⟩ := by
    simp only [step, on, process, hf, Run.requireOperand_ok hy]
    rfl
  have h₂ : step env ⟨y, some f⟩ o = .ok (on (y.inside (.call f.name []) f.span)) := by
    simp only [step, ho, onOpen, Run.requireOperand_ok hy]
    rfl
  rw [steps_cons, h₁, ok_bind, steps_cons, h₂, ok_bind]

/-- A bracket that closes at once. -/
theorem step_close_blank {c : Collected} (ht : t.kind.isCloser = true)
    (hc : c.isArray = (t.kind == .arrayClose)) (hfresh : c.isFresh = true) (hg : c.isGroup = false)
    (s : Span) :
    (on (y.inside c s)).step env t =
      (Run.closeValue env ⟨c, y.values.length, s⟩ t none).map fun q => on (Run.operand q.1 y) := by
  have hblank : Run.isBlank (y.inside c s) ⟨c, y.values.length, s⟩ = true := by
    simp [Run.isBlank, Yard.inside, Yard.openFrame, hg, hfresh]
  rw [step_closer ht, Run.onClose]
  simp only [show (y.inside c s).frames = ⟨c, y.values.length, s⟩ :: y.frames from rfl, hc,
    bne_self_eq_false, hblank, Bool.false_eq_true, ↓reduceIte]
  cases Run.closeValue env ⟨c, y.values.length, s⟩ t none with
  | error e => rfl
  | ok q => rfl

end

/-- Expressions with fewer than `n` tokens have their trees. -/
def Spelled (n : Nat) : Prop :=
  ∀ es : List Token, es.length < n → Derives .expr es → ∃ x, Spells es x

/-- Arguments have trees, which the parser reads up to the parenthesis, and whose values the call
gets there. -/
theorem Spelled.arguments {n : Nat} (ih : Spelled n) {as : List Token} {c : Token}
    (h : Derives .arguments as) (hn : as.length < n) (hc : c.kind = .parenClose) :
    ∃ xs, (∀ rest, outcome (Climbing.arguments (as ++ c :: rest)) = some (xs, rest)) ∧
      ∀ env y name args s, (on (Yard.inside (.call name args) s y)).steps env (as ++ [c]) =
        Tree.evalArguments env xs >>= fun vs =>
          ((env.call name (args ++ vs)).mapError (Fault.orSpan · s)).map fun v =>
            on (Run.operand v y) := by
  generalize hp : Phrase.arguments = p at h
  induction h with
  | @lastArgument as only _ =>
    obtain ⟨x, hx⟩ := ih as hn only
    refine ⟨[x], ?_, ?_⟩
    · intro rest
      exact arguments_last (hx.parses _ (nextLevel_eq_zero (by rw [hc]; rfl))) hc
    · intro env y name args s
      rw [hx.close (by rw [hc]; rfl) (by rw [hc]; rfl) s, Tree.evalArguments]
      cases x.eval env with
      | error e => rfl
      | ok v =>
        rw [ok_bind, closeValue_call]
        rfl
  | @argument as t bs first ht _ _ ih' =>
    have hlen : as.length < n ∧ bs.length < n := by
      simp only [List.length_append, List.length_cons] at hn
      omega
    obtain ⟨x, hx⟩ := ih as hlen.1 first
    obtain ⟨xs, hparse, hrun⟩ := ih' hlen.2 rfl
    refine ⟨x :: xs, ?_, ?_⟩
    · intro rest
      rw [List.append_assoc, List.cons_append]
      have hend : nextLevel (t :: (bs ++ c :: rest)) = 0 := nextLevel_eq_zero (by rw [ht]; rfl)
      exact arguments_more (hx.parses _ hend) ht (hparse rest)
    · intro env y name args s
      rw [List.append_assoc, List.cons_append, hx.argument ht, Tree.evalArguments]
      simp only [hrun, bind_bind]
      apply bind_congr
      intro v _
      apply bind_congr
      intro vs _
      rw [List.append_assoc]
      rfl
  | _ => cases hp

/-- What an entry of an array is: read up to its end, and stored there. -/
structure Stores (es : List Token) (item : Span → Item) : Prop where
  parses : ∀ t rest, t.kind = .comma ∨ t.kind = .arrayClose →
    outcome (items (es ++ t :: rest)) = outcome (moreItems item (t :: rest))
  continues : ∀ env y fs s t rest, t.kind = .comma →
    (on (Yard.inside (.array fs none) s y)).steps env (es ++ t :: rest) =
      Tree.evalItem env fs (item t.span) >>= fun fs =>
        (on (Yard.inside (.array fs none) s y)).steps env rest
  closes : ∀ env y fs s t, t.kind = .arrayClose →
    (on (Yard.inside (.array fs none) s y)).steps env (es ++ [t]) =
      (Tree.evalItem env fs (item t.span)).map fun fs => on (Run.operand (.array fs) y)

theorem nextLevel_of_end {t : Token} (ht : t.kind = .comma ∨ t.kind = .arrayClose)
    (rest : List Token) : nextLevel (t :: rest) = 0 := by
  rcases ht with ht | ht <;> exact nextLevel_eq_zero (by rw [ht]; rfl)

theorem Spells.stores {es : List Token} {x : Tree} (h : Spells es x) : Stores es (.plain x) where
  parses t rest ht := by
    have hn := nextLevel_of_end ht rest
    have ha : t.kind ≠ .pairArrow := by rcases ht with ht | ht <;> simp [ht]
    exact items_plain (h.parses _ hn) ha
  continues env y fs s t rest ht := by
    rw [h.entry ht, Tree.evalItem, bind_bind]
  closes env y fs s t ht := by
    rw [h.close (by rw [ht]; rfl) (by rw [ht]; rfl), Tree.evalItem, map_bind]
    apply bind_congr
    intro v _
    exact closeValue_array _ _ _ _ _

theorem Spells.stores_pair {ks es : List Token} {k x : Tree} {a : Token} (hk : Spells ks k)
    (ha : a.kind = .pairArrow) (h : Spells es x) : Stores (ks ++ a :: es) (.keyed k x) where
  parses t rest ht := by
    have hn := nextLevel_of_end ht rest
    rw [List.append_assoc, List.cons_append]
    have hend : nextLevel (a :: (es ++ t :: rest)) = 0 := nextLevel_eq_zero (by rw [ha]; rfl)
    exact items_keyed (hk.parses _ hend) ha (h.parses _ hn)
  continues env y fs s t rest ht := by
    rw [List.append_assoc, List.cons_append, hk.key ha, Tree.evalItem, bind_bind]
    apply bind_congr
    intro v _
    rw [h.entry ht, bind_bind]
  closes env y fs s t ht := by
    rw [List.append_assoc, List.cons_append, hk.key ha, Tree.evalItem, map_bind]
    apply bind_congr
    intro v _
    rw [h.close (by rw [ht]; rfl) (by rw [ht]; rfl), map_bind]
    apply bind_congr
    intro u _
    exact closeValue_array _ _ _ _ _

theorem Spelled.entry {n : Nat} (ih : Spelled n) {es : List Token} (h : Derives .entry es)
    (hn : es.length < n) : ∃ item, Stores es item := by
  cases h with
  | value only =>
    obtain ⟨x, hx⟩ := ih _ hn only
    exact ⟨_, hx.stores⟩
  | @pair as t bs key ht value =>
    simp only [List.length_append, List.length_cons] at hn
    obtain ⟨k, hk⟩ := ih as (by omega) key
    obtain ⟨x, hx⟩ := ih bs (by omega) value
    exact ⟨_, hk.stores_pair ht hx⟩

/-- Entries have trees too, which the array stores one by one. -/
theorem Spelled.items {n : Nat} (ih : Spelled n) {as : List Token} {c : Token}
    (h : Derives .entries as) (hn : as.length < n) (hc : c.kind = .arrayClose) :
    ∃ is, (∀ rest, outcome (Climbing.items (as ++ c :: rest)) = some (is, rest)) ∧
      ∀ env y es s, (on (Yard.inside (.array es none) s y)).steps env (as ++ [c]) =
        (Tree.evalItems env es is).map fun es => on (Run.operand (.array es) y) := by
  generalize hp : Phrase.entries = p at h
  induction h with
  | lastEntry only _ =>
    obtain ⟨item, hitem⟩ := ih.entry only hn
    refine ⟨[item c.span], ?_, ?_⟩
    · intro rest
      rw [hitem.parses c rest (.inr hc)]
      exact moreItems_last hc
    · intro env y es s
      rw [hitem.closes env y es s c hc, Tree.evalItems]
      cases Tree.evalItem env es (item c.span) with
      | error e => rfl
      | ok fs => rfl
  | @entry as t bs first ht _ _ ih' =>
    simp only [List.length_append, List.length_cons] at hn
    obtain ⟨item, hitem⟩ := ih.entry first (by omega)
    obtain ⟨is, hparse, hrun⟩ := ih' (by omega) rfl
    refine ⟨item t.span :: is, ?_, ?_⟩
    · intro rest
      rw [List.append_assoc, List.cons_append, hitem.parses t _ (.inl ht)]
      exact moreItems_more ht (hparse rest)
    · intro env y es s
      rw [List.append_assoc, List.cons_append, hitem.continues env y es s t _ ht, Tree.evalItems,
        map_bind]
      apply bind_congr
      intro fs _
      exact hrun env y fs s
  | _ => cases hp

/-- The tokens are read as an operand, whatever stands behind them, and they put the value of that
operand on the stack. -/
structure Stands (ps : List Token) (x : Tree) : Prop where
  parses : ∀ rest, outcome (Climbing.operand (ps ++ rest)) = some (x, rest)
  puts : ∀ env y, y.expectsOperand = true → Puts env x ps y

/-- Parentheses around an expression put its value where they stand. -/
theorem Spells.puts_group {env : Environment} {es : List Token} {x : Tree} {o c : Token} {y : Yard}
    (h : Spells es x) (ho : o.kind = .parenOpen) (hc : c.kind = .parenClose)
    (hy : y.expectsOperand = true) : Puts env x (o :: (es ++ [c])) y := by
  rw [Puts, steps_cons, step_parenOpen ho hy, ok_bind, h.close (by rw [hc]; rfl) (by rw [hc]; rfl)]
  cases x.eval env with
  | error e => rfl
  | ok v => rfl

theorem stands_atom {t : Token} (ht : t.kind = .number ∨ t.kind = .literal ∨ t.kind = .identifier) :
    ∃ x, Stands [t] x := by
  have value (hk : t.kind = .number ∨ t.kind = .literal) : Stands [t] (.value t.value) := by
    refine ⟨fun rest => operand_value hk, ?_⟩
    intro env y hy
    rw [Puts, steps_cons, step_value hk hy]
    rfl
  rcases ht with hk | hk | hk
  · exact ⟨_, value (.inl hk)⟩
  · exact ⟨_, value (.inr hk)⟩
  · refine ⟨.name t.name t.span, fun rest => operand_name hk, ?_⟩
    intro env y hy
    rw [Puts, steps_cons, step_name hk hy, bind_map, Tree.eval]
    cases (env.resolve t.name).mapError (Fault.orSpan · t.span) with
    | error e => rfl
    | ok v => rfl

/-- A primary stands by itself. -/
theorem Spelled.primary {n : Nat} (ih : Spelled n) {ps : List Token} (h : Derives .primary ps)
    (hn : ps.length ≤ n) : ∃ x, Stands ps x := by
  cases h with
  | atom ht => exact stands_atom ht
  | @group o as c ho inner hc =>
    simp only [List.length_append, List.length_cons, List.length_nil] at hn
    obtain ⟨x, hx⟩ := ih as (by omega) inner
    refine ⟨x, ?_, ?_⟩
    · intro rest
      rw [List.cons_append, List.append_assoc]
      exact operand_parenOpen ho hc (hx.parses _ (nextLevel_eq_zero (by rw [hc]; rfl)))
    · intro env y hy
      exact hx.puts_group ho hc hy
  | @emptyCall f o c hf ho hc =>
    refine ⟨.call f.name f.span [], fun rest => operand_functionCall hf (call_empty ho hc), ?_⟩
    intro env y hy
    have hblank : (on (y.inside (.call f.name []) f.span)).step env c = _ :=
      step_close_blank (by rw [hc]; rfl) (by rw [hc]; rfl) rfl rfl f.span
    rw [Puts, steps_functionCall hf ho hy, steps_cons, hblank, closeValue_call, Tree.eval,
      Tree.evalArguments]
    change Except.map _ ((env.call f.name []).mapError _) >>= _ =
      ((env.call f.name []).mapError _).map _
    cases (env.call f.name []).mapError (Fault.orSpan · f.span) with
    | error e => rfl
    | ok v => rfl
  | @call f o as c hf ho inner hc =>
    simp only [List.length_append, List.length_cons, List.length_nil] at hn
    obtain ⟨xs, hparse, hrun⟩ := ih.arguments inner (by omega) hc
    refine ⟨.call f.name f.span xs, ?_, ?_⟩
    · intro rest
      obtain ⟨a, as, rfl, ha⟩ := inner.begins (by decide)
      have hne : a.kind ≠ .parenClose := by
        intro hk
        rw [hk] at ha
        cases ha
      have hcall : outcome (Climbing.call (o :: ((a :: as) ++ c :: rest))) = some (xs, rest) :=
        (call_arguments ho hne).trans (hparse rest)
      have hlist : f :: o :: (a :: as ++ [c]) ++ rest = f :: o :: ((a :: as) ++ c :: rest) := by
        simp
      rw [hlist]
      exact operand_functionCall hf hcall
    · intro env y hy
      rw [Puts, steps_functionCall hf ho hy, hrun, Tree.eval, map_bind]
      rfl
  | @emptyArray o c ho hc =>
    refine ⟨.array [], fun rest => operand_emptyArray ho hc, ?_⟩
    intro env y hy
    have hblank : (on (y.inside (.array [] none) o.span)).step env c = _ :=
      step_close_blank (by rw [hc]; rfl) (by rw [hc]; rfl) rfl rfl o.span
    rw [Puts, steps_cons, step_arrayOpen ho hy, ok_bind, steps_cons, hblank]
    rfl
  | @array o as c ho inner hc =>
    simp only [List.length_append, List.length_cons, List.length_nil] at hn
    obtain ⟨is, hparse, hrun⟩ := ih.items inner (by omega) hc
    refine ⟨.array is, ?_, ?_⟩
    · intro rest
      obtain ⟨a, as, rfl, ha⟩ := inner.begins (by decide)
      have hne : a.kind ≠ .arrayClose := by
        intro hk
        rw [hk] at ha
        cases ha
      have hlist : o :: (a :: as ++ [c]) ++ rest = o :: ((a :: as) ++ c :: rest) := by simp
      rw [hlist]
      exact operand_array ho hne (hparse rest)
    · intro env y hy
      rw [Puts, steps_cons, step_arrayOpen ho hy, ok_bind, hrun, Tree.eval, map_map]

end Formula
