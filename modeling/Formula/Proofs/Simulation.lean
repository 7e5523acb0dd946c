import Formula.Proofs.Interruption
import Formula.Proofs.Outline

/-! A run follows the automaton on outlines token by token: it takes only what the automaton takes,
and where it ends without an interruption, the automaton stops at the same token. -/
namespace Formula

def Collected.bracket : Collected → Bracket
  | .group => .group
  | .call .. => .call
  | .array _ key => .array key.isSome

theorem Collected.isArray_bracket (c : Collected) : c.bracket.isArray = c.isArray := by
  cases c <;> rfl

namespace Yard

def brackets (y : Yard) : List Bracket := y.frames.map fun f => f.collected.bracket

/-- What comes next: the end of a bracket is possible at once only where it is blank. -/
def expected (y : Yard) : Expected :=
  if y.expectsOperand then
    match y.frames with
    | [] => .operand
    | f :: _ => if Run.isBlank y f then .entry else .operand
  else .operator

def outline (y : Yard) : Outline := ⟨y.brackets, y.expected⟩

variable {env : Environment} {y z : Yard}

theorem expected_eq_operator : y.expected = .operator ↔ y.expectsOperand = false := by
  unfold expected
  split
  · rename_i h
    simp only [h, Bool.true_eq_false, iff_false]
    repeat' split
    all_goals decide
  · rename_i h
    simpa using h

theorem expected_ne_parenthesis : y.expected ≠ .parenthesis := by
  unfold expected
  repeat' split
  all_goals decide

/-- Behind something collected, or an operator, a bracket is not blank. -/
theorem expected_eq_operand (hy : y.expectsOperand = true)
    (h : ∀ f fs, y.frames = f :: fs → Run.isBlank y f = false) : y.expected = .operand := by
  simp only [expected, hy, ↓reduceIte]
  split
  · rfl
  · rename_i f fs hf
    simp [h f fs hf]

theorem outline_operand (v : Value) : (Run.operand v y).outline = ⟨y.brackets, .operator⟩ := rfl

theorem outline_openFrame (c : Collected) (s : Span) (hc : c.isFresh = true) :
    ({ y.openFrame c s with expectsOperand := true } : Yard).outline =
      ⟨c.bracket :: y.brackets, if c.isGroup then .operand else .entry⟩ := by
  cases hg : c.isGroup <;>
    simp [outline, brackets, expected, openFrame, Run.isBlank, hg, hc]

theorem outline_of_operator {op : Kind} {s : Span} {ops : List Stacked}
    (hy : y.expectsOperand = true) (ho : y.operators = .operator op s :: ops) :
    y.outline = ⟨y.brackets, .operand⟩ := by
  rw [outline, expected_eq_operand hy]
  intro f fs _
  simp [Run.isBlank, ho]

end Yard

theorem Entries.store_ne_nil {es es' : Entries} {key : Option Value} {v : Value}
    (h : es.store key v = .ok es') : es'.isEmpty = false := by
  cases key with
  | none => cases h; simp [push]
  | some k =>
    obtain ⟨text, -, rfl⟩ := map_eq_ok.mp h
    cases es with
    | nil => rfl
    | cons e es =>
      simp only [insert]
      split <;> rfl

/-- What a bracket that has received something is, and that it is no longer fresh. -/
theorem Collected.Receives.bracket {k : Kind} {c c' : Collected} {v : Value}
    (h : c.Receives k v c') : c'.isFresh = false ∧
      ((k = .comma ∧ c.bracket = .call ∧ c'.bracket = .call) ∨
        (k = .comma ∧ c.isArray = true ∧ c'.bracket = .array false) ∨
        (k = .pairArrow ∧ c.bracket = .array false ∧ c'.bracket = .array true)) := by
  cases h with
  | argument => exact ⟨by simp [isFresh], .inl ⟨rfl, rfl, rfl⟩⟩
  | entry h => exact ⟨by simp [isFresh, Entries.store_ne_nil h], .inr (.inl ⟨rfl, rfl, rfl⟩)⟩
  | key => exact ⟨by simp [isFresh], .inr (.inr ⟨rfl, rfl, rfl⟩)⟩

namespace Yard

variable {env : Environment} {y z : Yard} {t : Token}

theorem step_kind (y : Yard) (k : Kind) :
    y.outline.step k =
      match k with
      | .number | .literal | .identifier => y.outline.beginning ⟨y.brackets, .operator⟩
      | .functionCall => y.outline.beginning ⟨y.brackets, .parenthesis⟩
      | .parenOpen => y.outline.beginning ⟨.group :: y.brackets, .operand⟩
      | .arrayOpen => y.outline.beginning ⟨.array false :: y.brackets, .entry⟩
      | .unaryPlus | .unaryMinus | .not => y.outline.beginning ⟨y.brackets, .operand⟩
      | .comma =>
        match y.brackets with
        | .call :: bs => y.outline.following ⟨.call :: bs, .operand⟩
        | .array _ :: bs => y.outline.following ⟨.array false :: bs, .operand⟩
        | _ => .error .unexpectedToken
      | .pairArrow =>
        match y.brackets with
        | .array false :: bs => y.outline.following ⟨.array true :: bs, .operand⟩
        | _ => .error .unexpectedToken
      | .parenClose => y.outline.closing false
      | .arrayClose => y.outline.closing true
      | _ => y.outline.following ⟨y.brackets, .operand⟩ := by
  have h : y.outline.expected ≠ .parenthesis := expected_ne_parenthesis
  cases k <;> exact if_neg h

theorem beginning_ok (hy : y.expectsOperand = true) (next : Outline) :
    y.outline.beginning next = .ok next := by
  apply if_neg
  change y.expected ≠ .operator
  rw [Ne, expected_eq_operator, hy]
  decide

theorem following_ok (hy : y.expectsOperand = false) (next : Outline) :
    y.outline.following next = .ok next :=
  if_pos (expected_eq_operator.mpr hy)

theorem step_separated {k : Kind} (h : Run.Separated env y k z) :
    y.outline.step k = .ok z.outline := by
  obtain ⟨hy, w, f, fs, v, vs, c, hw, hf, hv, hl, hc, rfl⟩ := h
  obtain ⟨hfresh, hkind⟩ := hc.bracket
  have hz : Yard.outline ⟨w.operators, vs, { f with collected := c } :: fs, true⟩ =
      ⟨c.bracket :: fs.map fun f => f.collected.bracket, .operand⟩ := by
    rw [outline, expected_eq_operand rfl]
    · rfl
    · rintro f' fs' ⟨⟩
      simp [Run.isBlank, hfresh]
  have hb : y.brackets = f.collected.bracket :: fs.map fun f => f.collected.bracket := by
    simp [brackets, hf]
  rw [hz, step_kind]
  rcases hkind with ⟨rfl, hb', hc'⟩ | ⟨rfl, ha, hc'⟩ | ⟨rfl, hb', hc'⟩
  · simp only [hb, hb', hc', following_ok hy]
  · rw [← Collected.isArray_bracket] at ha
    cases hb' : f.collected.bracket with
    | array keyed => simp only [hb, hb', hc', following_ok hy]
    | _ => rw [hb'] at ha; cases ha
  · simp only [hb, hb', hc', following_ok hy]

theorem step_closer (y : Yard) (hk : t.kind.isCloser = true) :
    y.outline.step t.kind = y.outline.closing (t.kind == .arrayClose) := by
  obtain ⟨k, p, s⟩ := t
  cases k <;> first | exact step_kind y _ | cases hk

theorem expected_of_frame {f : Frame} {fs : List Frame} (hf : y.frames = f :: fs)
    (hy : y.expectsOperand = true) :
    y.expected = if Run.isBlank y f then .entry else .operand := by
  simp [expected, hy, hf]

theorem step_onClose {time : Nat} (hk : t.kind.isCloser = true)
    (h : Run.onClose env y t = .ok (z, time)) : y.outline.step t.kind = .ok z.outline := by
  obtain ⟨f, fs, hf, ha, h⟩ := Run.onClose_eq_ok h
  have he : y.expected ≠ .operand ∧
      z.outline = ⟨fs.map fun f => f.collected.bracket, .operator⟩ := by
    rcases h with ⟨hb, v, -, rfl⟩ | ⟨-, hy, w, u, vs, v, hw, -, -, -, rfl⟩
    · refine ⟨?_, ?_⟩
      · have hy : y.expectsOperand = true := by simp_all [Run.isBlank]
        rw [expected_of_frame hf hy, hb]
        decide
      · simp [outline_operand, brackets, closeFrame, hf]
    · refine ⟨?_, ?_⟩
      · rw [expected_eq_operator.mpr hy]
        decide
      · simp [outline_operand, brackets, closeFrame, (frames_reduce hw).1, hf]
  rw [step_closer y hk, he.2]
  refine Outline.closing_eq_ok.mpr ⟨f.collected.bracket, _, ?_, ?_, he.1, rfl⟩
  · simp [outline, brackets, hf]
  · rw [Collected.isArray_bracket, ha]

end Yard

namespace Run

variable {env : Environment} {r r' : Run} {t : Token}

def outline (r : Run) : Outline :=
  if r.awaiting.isSome then ⟨r.yard.brackets, .parenthesis⟩ else r.yard.outline

theorem outline_of_awaiting {call : Token} (h : r.awaiting = some call) :
    r.outline = ⟨r.yard.brackets, .parenthesis⟩ := by simp [outline, h]

theorem outline_of_none (h : r.awaiting = none) : r.outline = r.yard.outline := by
  simp [outline, h]

theorem outline_next (z : Yard) : (r.next z).outline = z.outline := rfl

/-- What the run takes, the automaton takes. -/
theorem step_outline (h : r.step env t = .ok r') : r.outline.step t.kind = .ok r'.outline := by
  simp only [Run.step] at h
  split at h
  · rename_i call ha
    simp only [openCall] at h
    split at h
    · rename_i ht
      obtain ⟨z, hz, rfl⟩ := map_eq_ok.mp h
      obtain ⟨-, -, rfl⟩ := onOpen_eq_ok hz
      rw [outline_of_awaiting ha, ht, outline_next,
        Yard.outline_openFrame (.call call.name []) _ rfl]
      rfl
    · cases h
  · rename_i ha
    obtain ⟨_, -, hp⟩ := bind_eq_ok.mp h
    rw [outline_of_none ha]
    simp only [process] at hp
    split at hp
    case h_1 ht | h_2 ht | h_3 ht =>
      obtain ⟨z, hz, rfl⟩ := map_eq_ok.mp hp
      obtain ⟨hy, v, -, rfl⟩ := onValue_eq_ok hz
      rw [Yard.step_kind, ht, outline_of_none rfl]
      exact Yard.beginning_ok hy _
    case h_4 ht =>
      obtain ⟨_, hz, rfl⟩ := map_eq_ok.mp hp
      rw [Yard.step_kind, ht, outline_of_awaiting rfl]
      exact Yard.beginning_ok (requireOperand_eq_ok.mp hz) _
    case h_5 ht =>
      obtain ⟨z, hz, rfl⟩ := map_eq_ok.mp hp
      obtain ⟨hy, -, rfl⟩ := onOpen_eq_ok hz
      rw [Yard.step_kind, ht, outline_next, Yard.outline_openFrame .group _ rfl]
      exact Yard.beginning_ok hy _
    case h_6 ht =>
      obtain ⟨z, hz, rfl⟩ := map_eq_ok.mp hp
      obtain ⟨hy, -, rfl⟩ := onOpen_eq_ok hz
      rw [Yard.step_kind, ht, outline_next, Yard.outline_openFrame (.array [] none) _ rfl]
      exact Yard.beginning_ok hy _
    case h_7 ht =>
      obtain ⟨z, hz, rfl⟩ := map_eq_ok.mp hp
      rw [ht]
      exact Yard.step_separated (onComma_eq_ok hz)
    case h_8 ht =>
      obtain ⟨z, hz, rfl⟩ := map_eq_ok.mp hp
      rw [ht]
      exact Yard.step_separated (onArrow_eq_ok hz)
    case h_9 ht | h_10 ht =>
      obtain ⟨⟨z, time⟩, hz, rfl⟩ := map_eq_ok.mp hp
      exact Yard.step_onClose (by rw [ht]; rfl) hz
    case h_11 ht | h_12 ht | h_13 ht =>
      obtain ⟨z, hz, rfl⟩ := map_eq_ok.mp hp
      obtain ⟨hy, rfl⟩ := onPrefix_eq_ok hz
      rw [Yard.step_kind, ht, outline_next,
        Yard.outline_of_operator (y := r.yard.pushPrefix _ _) hy rfl]
      exact Yard.beginning_ok hy _
    case h_14 =>
      obtain ⟨z, hz, rfl⟩ := map_eq_ok.mp hp
      obtain ⟨hy, w, hw, rfl⟩ := onInfix_eq_ok hz
      have ht : t.kind.isInfixOperator = true :=
        t.kind.isInfixOperator_or.resolve_right (by simp_all)
      obtain ⟨seg, ops, vs, -, -, -, rfl⟩ := Yard.pushBinary_eq_ok hw
      have hz : Yard.outline ⟨.operator t.kind t.span :: ops, vs, r.yard.frames, true⟩ =
          ⟨r.yard.brackets, .operand⟩ := Yard.outline_of_operator rfl rfl
      rw [Outline.step_infixOperator ht Yard.expected_ne_parenthesis, outline_next, hz]
      exact Yard.following_ok hy _

theorem steps_outline {ts : List Token} (h : r.steps env ts = .ok r') :
    r.outline.steps ts = .ok r'.outline := by
  induction ts generalizing r with
  | nil => cases h; rfl
  | cons t ts ih =>
    rw [steps_cons] at h
    obtain ⟨q, hq, h⟩ := bind_eq_ok.mp h
    rw [Outline.steps_cons, step_outline hq]
    exact ih h

end Run

/-- The fault of structure at a token. -/
def SyntaxFault.at (f : SyntaxFault) (t : Token) : Fault :=
  if f = .unmatchedClose then .unmatched t else .unexpected t

namespace Run

variable {env : Environment} {r : Run} {y : Yard} {t : Token} {e : Fault}

theorem requireOperand_eq_error :
    requireOperand y t = .error e ↔ y.expectsOperand = false ∧ e = .unexpected t := by
  cases h : y.expectsOperand <;> simp [requireOperand, h, eq_comm]

theorem requireOperator_eq_error :
    requireOperator y t = .error e ↔ y.expectsOperand = true ∧ e = .unexpected t := by
  cases h : y.expectsOperand <;> simp [requireOperator, h, eq_comm]

theorem settled_eq_error {x : Except Yard.Halted Yard} :
    settled x = .error e ↔ ∃ h, x = .error h ∧ h.fault = e := mapError_eq_error

/-- The automaton stops at the token too, with the fault `e`. -/
def Refused (y : Yard) (t : Token) (e : Fault) : Prop :=
  ∃ f, y.outline.step t.kind = .error f ∧ e = f.at t

theorem refused_beginning {next : Outline} (h : requireOperand y t = .error e)
    (hs : y.outline.step t.kind = y.outline.beginning next) : Refused y t e := by
  obtain ⟨hy, rfl⟩ := requireOperand_eq_error.mp h
  exact ⟨.unexpectedToken, hs.trans (if_pos (Yard.expected_eq_operator.mpr hy)), rfl⟩

theorem refused_following {next : Outline} (hy : y.expectsOperand = true)
    (h : y.outline.step t.kind = y.outline.following next) : Refused y t (.unexpected t) := by
  refine ⟨.unexpectedToken, h.trans (if_neg ?_), rfl⟩
  change y.expected ≠ .operator
  rw [Ne, Yard.expected_eq_operator, hy]
  decide

/-- No call and no array is innermost. -/
theorem refused_comma (hk : t.kind = .comma)
    (hb : y.brackets = [] ∨ ∃ bs, y.brackets = .group :: bs) : Refused y t (.unexpected t) := by
  refine ⟨.unexpectedToken, ?_, rfl⟩
  rcases hb with hb | ⟨bs, hb⟩ <;> simp [Yard.step_kind, hk, hb]

theorem onComma_eq_error (hk : t.kind = .comma) (hd : y.Disciplined)
    (h : onComma env y t = .error e) : y.Interrupted env t e ∨ Refused y t e := by
  rcases bind_eq_error.mp h with h | ⟨_, hy, h⟩
  · obtain ⟨hy, rfl⟩ := requireOperator_eq_error.mp h
    right
    cases hb : y.brackets with
    | nil => exact refused_comma hk (.inl hb)
    | cons b bs =>
      cases b with
      | group => exact refused_comma hk (.inr ⟨bs, hb⟩)
      | call => exact refused_following hy (by simp [Yard.step_kind, hk, hb]; rfl)
      | array keyed => exact refused_following hy (by simp [Yard.step_kind, hk, hb]; rfl)
  · rw [requireOperator_eq_ok] at hy
    rcases bind_eq_error.mp h with h | ⟨w, hw, h⟩
    · obtain ⟨e, hr, rfl⟩ := settled_eq_error.mp h
      exact .inl (.expression (by rw [hk]; trivial) hy hr (hd.operatorFault_of_reduce hy hr))
    · rw [settled_eq_ok] at hw
      have hf := (Yard.frames_reduce hw).1
      split at h
      · rename_i name args base s fs he
        obtain ⟨v, w', hv⟩ := hd.single_taken hy w _ fs t.span hw he
        simp [hv] at h
      · rename_i es key base s fs he
        obtain ⟨v, w', hv⟩ := hd.single_taken hy w _ fs t.span hw he
        rw [hv, ok_bind] at h
        rcases bind_eq_error.mp h with h | ⟨es', -, h⟩
        · obtain ⟨e, hs, rfl⟩ := mapError_eq_error.mp h
          exact .inl (.key hk hy hw he hv hs)
        · cases h
      · rename_i hcall harray
        cases h
        refine .inr (refused_comma hk ?_)
        rw [Yard.brackets, ← hf]
        cases hw' : w.frames with
        | nil => exact .inl rfl
        | cons f fs =>
          obtain ⟨c, base, s⟩ := f
          cases c with
          | group => exact .inr ⟨_, rfl⟩
          | call name args => exact absurd hw' (hcall name args base s fs)
          | array es key => exact absurd hw' (harray es key base s fs)

/-- No array without a pending key is innermost. -/
theorem refused_arrow (hk : t.kind = .pairArrow)
    (hb : ∀ bs, y.brackets ≠ .array false :: bs) : Refused y t (.unexpected t) := by
  refine ⟨.unexpectedToken, ?_, rfl⟩
  rw [Yard.step_kind, hk]
  cases hb' : y.brackets with
  | nil => rfl
  | cons b bs =>
    cases b with
    | array keyed =>
      cases keyed with
      | false => exact absurd hb' (hb bs)
      | true => rfl
    | _ => rfl

theorem onArrow_eq_error (hk : t.kind = .pairArrow) (hd : y.Disciplined)
    (h : onArrow env y t = .error e) : y.Interrupted env t e ∨ Refused y t e := by
  rcases bind_eq_error.mp h with h | ⟨_, hy, h⟩
  · obtain ⟨hy, rfl⟩ := requireOperator_eq_error.mp h
    right
    by_cases hb : ∃ bs, y.brackets = .array false :: bs
    · obtain ⟨bs, hb⟩ := hb
      exact refused_following hy (by simp [Yard.step_kind, hk, hb]; rfl)
    · exact refused_arrow hk (by simpa using hb)
  · rw [requireOperator_eq_ok] at hy
    split at h
    · rename_i es base s fs he
      rcases bind_eq_error.mp h with h | ⟨w, hw, h⟩
      · obtain ⟨e, hr, rfl⟩ := settled_eq_error.mp h
        exact .inl (.expression (by rw [hk]; exact ⟨es, base, s, fs, he⟩) hy hr
          (hd.operatorFault_of_reduce hy hr))
      · rw [settled_eq_ok] at hw
        have hf := (Yard.frames_reduce hw).1.trans he
        obtain ⟨v, w', hv⟩ := hd.single_taken hy w _ fs t.span hw hf
        simp [hv] at h
    · rename_i harray
      cases h
      refine .inr (refused_arrow hk ?_)
      intro bs hb
      cases hw' : y.frames with
      | nil => simp [Yard.brackets, hw'] at hb
      | cons f fs =>
        obtain ⟨c, base, s⟩ := f
        simp only [Yard.brackets, hw', List.map_cons, List.cons.injEq] at hb
        cases c with
        | array es key =>
          cases key with
          | none => exact harray es base s fs hw'
          | some k => cases hb.1
        | _ => cases hb.1

theorem refused_closing {f : SyntaxFault} (hk : t.kind.isCloser = true)
    (h : y.outline.closing (t.kind == .arrayClose) = .error f) : Refused y t (f.at t) :=
  ⟨f, (Yard.step_closer y hk).trans h, rfl⟩

theorem onClose_eq_error (hk : t.kind.isCloser = true) (hd : y.Disciplined)
    (h : onClose env y t = .error e) : y.Interrupted env t e ∨ Refused y t e := by
  simp only [onClose] at h
  split at h
  · rename_i hf
    cases h
    exact .inr (refused_closing (f := .unmatchedClose) hk
      (by simp [Outline.closing, Yard.outline, Yard.brackets, hf]))
  · rename_i f fs hf
    have hb : y.outline.brackets = f.collected.bracket :: fs.map fun f => f.collected.bracket := by
      simp [Yard.outline, Yard.brackets, hf]
    split at h
    · rename_i ha
      cases h
      refine .inr (refused_closing (f := .unmatchedClose) hk ?_)
      simp only [Outline.closing, hb, Collected.isArray_bracket, ha, ↓reduceIte]
    · rename_i ha
      have ha' : f.collected.isArray = (t.kind == .arrayClose) := by simpa using ha
      split at h
      · rename_i hblank
        rcases bind_eq_error.mp h with h | ⟨_, -, h⟩
        · exact .inl (.emptyClose hk hf ha' hblank h)
        · cases h
      · rename_i hblank
        split at h
        · rename_i hy
          cases h
          refine .inr (refused_closing (f := .unexpectedToken) hk ?_)
          have he : y.outline.expected = .operand := by
            change y.expected = _
            rw [Yard.expected_of_frame hf hy, if_neg hblank]
          simp [Outline.closing, hb, Collected.isArray_bracket, ha', he]
        · rename_i hy
          have hy' : y.expectsOperand = false := by simpa using hy
          rcases bind_eq_error.mp h with h | ⟨w, hw, h⟩
          · obtain ⟨e, hr, rfl⟩ := settled_eq_error.mp h
            refine .inl (.expression ?_ hy' hr (hd.operatorFault_of_reduce hy' hr))
            cases hk' : t.kind <;> simp_all [Kind.isCloser, Kind.role, Yard.Ends]
          · rw [settled_eq_ok] at hw
            obtain ⟨v, w', hv⟩ :=
              hd.single_taken hy' w f fs t.span hw ((Yard.frames_reduce hw).1.trans hf)
            rw [hv, ok_bind] at h
            rcases bind_eq_error.mp h with h | ⟨_, -, h⟩
            · exact .inl (.close hk hf ha' hy' hw hv h)
            · cases h

theorem process_eq_error (h : r.Steady env.limits) (ha : r.awaiting = none)
    (hb : checkBudget env.limits r = .ok ()) (he : process env r t = .error e) :
    r.Interrupted env t e ∨ Refused r.yard t e := by
  have evaluation : r.yard.Interrupted env t e ∨ Refused r.yard t e →
      r.Interrupted env t e ∨ Refused r.yard t e := fun h => h.imp_left (.evaluation ha hb)
  simp only [process] at he
  split at he
  case h_1 hk | h_2 hk =>
    rcases bind_eq_error.mp (map_eq_error.mp he) with he | ⟨_, -, he⟩
    · exact .inr (refused_beginning he (by simp only [Yard.step_kind, hk]; rfl))
    · cases he
  case h_3 hk =>
    rcases bind_eq_error.mp (map_eq_error.mp he) with he | ⟨_, hy, he⟩
    · exact .inr (refused_beginning he (by simp only [Yard.step_kind, hk]; rfl))
    · rcases bind_eq_error.mp he with he | ⟨_, -, he⟩
      · obtain ⟨e, hn, rfl⟩ := mapError_eq_error.mp he
        exact evaluation (.inl (.name hk (requireOperand_eq_ok.mp hy) hn))
      · cases he
  case h_4 hk =>
    exact .inr (refused_beginning (map_eq_error.mp he) (by simp only [Yard.step_kind, hk]; rfl))
  case h_5 hk | h_6 hk =>
    rcases bind_eq_error.mp (map_eq_error.mp he) with he | ⟨_, hy, he⟩
    · exact .inr (refused_beginning he (by simp only [Yard.step_kind, hk]; rfl))
    · rcases bind_eq_error.mp he with he | ⟨_, -, he⟩
      · exact .inl (.limit (.bracket ha hb (by rw [hk]; rfl) (requireOperand_eq_ok.mp hy) he))
      · cases he
  case h_7 hk => exact evaluation (onComma_eq_error hk h.disciplined (map_eq_error.mp he))
  case h_8 hk => exact evaluation (onArrow_eq_error hk h.disciplined (map_eq_error.mp he))
  case h_9 hk | h_10 hk =>
    exact evaluation (onClose_eq_error (by rw [hk]; rfl) h.disciplined (map_eq_error.mp he))
  case h_11 hk | h_12 hk | h_13 hk =>
    rcases bind_eq_error.mp (map_eq_error.mp he) with he | ⟨_, -, he⟩
    · exact .inr (refused_beginning he (by simp only [Yard.step_kind, hk]; rfl))
    · cases he
  case h_14 =>
    have hk : t.kind.isInfixOperator = true :=
      t.kind.isInfixOperator_or.resolve_right (by simp_all)
    rcases bind_eq_error.mp (map_eq_error.mp he) with he | ⟨_, hy, he⟩
    · obtain ⟨hy, rfl⟩ := requireOperator_eq_error.mp he
      exact .inr (refused_following hy (Outline.step_infixOperator hk Yard.expected_ne_parenthesis))
    · rcases bind_eq_error.mp he with he | ⟨_, -, he⟩
      · obtain ⟨e, hp, rfl⟩ := settled_eq_error.mp he
        have hy := requireOperator_eq_ok.mp hy
        have ho := h.disciplined.operatorFault_of_pushBinary hy hp
        exact evaluation (.inl (.operation hk hy hp ho))
      · cases he

/-- Where a run ends without an interruption, the automaton stops too. -/
theorem step_eq_error (h : r.Steady env.limits) (he : r.step env t = .error e) :
    r.Interrupted env t e ∨ ∃ f, r.outline.step t.kind = .error f ∧ e = f.at t := by
  simp only [Run.step] at he
  split at he
  · rename_i call ha
    have hy := h.awaiting call ha
    simp only [openCall] at he
    split at he
    · rename_i hk
      rw [map_eq_error, onOpen, requireOperand_ok hy, ok_bind] at he
      rcases bind_eq_error.mp he with he | ⟨_, -, he⟩
      · exact .inl (.limit (.call ha hk hy he))
      · cases he
    · rename_i hk
      cases he
      rw [outline_of_awaiting ha]
      exact .inr ⟨.unexpectedToken, if_neg hk, rfl⟩
  · rename_i ha
    rw [outline_of_none ha]
    rcases bind_eq_error.mp he with he | ⟨_, hb, he⟩
    · exact .inl (.limit (.budget ha he))
    · exact process_eq_error h ha hb he

/-- A run ends at the first token that interrupts it or that the automaton refuses. -/
theorem steps_eq_error {ts : List Token} (h : r.Steady env.limits)
    (he : r.steps env ts = .error e) :
    ∃ as t bs q, ts = as ++ t :: bs ∧ r.steps env as = .ok q ∧ q.Steady env.limits ∧
      q.step env t = .error e := by
  induction ts generalizing r with
  | nil => cases he
  | cons t ts ih =>
    rw [steps_cons] at he
    rcases bind_eq_error.mp he with hs | ⟨q, hq, he⟩
    · exact ⟨[], t, ts, r, rfl, rfl, h, hs⟩
    · obtain ⟨as, u, bs, p, rfl, hp, hsteady, hs⟩ := ih (h.step hq) he
      refine ⟨t :: as, u, bs, p, rfl, ?_, hsteady, hs⟩
      rw [steps_cons, hq, ok_bind, hp]

theorem outline_eq_accepting (ha : r.awaiting = none) (hf : r.yard.frames = [])
    (hy : r.yard.expectsOperand = false) : r.outline = .accepting := by
  rw [outline_of_none ha, Yard.outline, Yard.expected_eq_operator.mpr hy, Yard.brackets, hf]
  rfl

theorem finish_eq_ok {last : Token} {v : Value} (h : r.finish env last = .ok v) :
    r.outline = .accepting ∧ ∃ z, r.yard.reduce env = .ok z ∧ z.values = [v] := by
  simp only [finish] at h
  split at h
  · cases h
  · cases h
  · rename_i ha hf
    split at h
    · cases h
    · rename_i hy
      obtain ⟨z, hz, h⟩ := bind_eq_ok.mp h
      split at h
      · rename_i u hu
        cases h
        exact ⟨outline_eq_accepting ha hf (by simpa using hy), z, settled_eq_ok.mp hz, hu⟩
      · cases h

/-- With no bracket open, applying the operators leaves one value. -/
theorem Steady.one_value {z : Yard} (h : r.Steady env.limits) (hf : r.yard.frames = [])
    (hy : r.yard.expectsOperand = false) (hz : r.yard.reduce env = .ok z) :
    z.operators = [] ∧ ∃ v, z.values = [v] := by
  have hd := h.disciplined.reduce hz
  obtain ⟨_, _, _, _, _, _, hr⟩ := Yard.reduce_eq_ok hz
  obtain ⟨hf', hy'⟩ := Yard.frames_reduce hz
  have hm := hd.markers
  have hv := hd.values
  rw [hf', hf] at hm
  rw [hy', hy] at hv
  cases ho : z.operators with
  | nil =>
    rw [ho] at hv
    exact ⟨rfl, List.length_eq_one_iff.mp (by simpa using hv)⟩
  | cons o ops =>
    cases o with
    | marker => simp [ho] at hm
    | operator op s => exact absurd ho (hr op s ops)

/-- Why a run cannot end behind `last`: a call or a bracket is open, an operand is missing, or an
operator fails. -/
inductive Unfinished (env : Environment) (r : Run) (last : Token) : Fault → Prop
  | call {call} (ha : r.awaiting = some call) : Unfinished env r last (.unexpectedEnd call)
  | bracket {f fs} (ha : r.awaiting = none) (hf : r.yard.frames = f :: fs) :
      Unfinished env r last (.unclosed f.opened)
  | operand (ha : r.awaiting = none) (hf : r.yard.frames = [])
      (hy : r.yard.expectsOperand = true) : Unfinished env r last (.unexpectedEnd last)
  | operation {h} (ha : r.awaiting = none) (hf : r.yard.frames = [])
      (hy : r.yard.expectsOperand = false) (hr : r.yard.reduce env = .error h) :
      Unfinished env r last h.fault

theorem unfinished_of_finish {last : Token} (h : r.Steady env.limits)
    (he : r.finish env last = .error e) : r.Unfinished env last e := by
  simp only [finish] at he
  split at he
  · rename_i call ha
    cases he
    exact .call ha
  · rename_i f fs ha hf
    cases he
    exact .bracket ha hf
  · rename_i ha hf
    split at he
    · rename_i hy
      cases he
      exact .operand ha hf hy
    · rename_i hy
      have hy' : r.yard.expectsOperand = false := by simpa using hy
      rcases bind_eq_error.mp he with he | ⟨z, hz, he⟩
      · obtain ⟨d, hd, rfl⟩ := settled_eq_error.mp he
        exact .operation ha hf hy' hd
      · obtain ⟨-, v, hv⟩ := h.one_value hf hy' (settled_eq_ok.mp hz)
        rw [hv] at he
        cases he

theorem finish_eq_error {last : Token} (h : r.Steady env.limits)
    (he : r.finish env last = .error e) :
    (r.awaiting = none ∧ r.yard.frames = [] ∧ r.yard.expectsOperand = false ∧
        ∃ d, r.yard.reduce env = .error d ∧ e = d.fault) ∨
      (r.outline ≠ .accepting ∧
        (e.syntaxKind? = some .unexpectedEnd ∨ e.syntaxKind? = some .unclosedBracket)) := by
  cases unfinished_of_finish h he with
  | call ha =>
    refine .inr ⟨?_, .inl rfl⟩
    rw [outline_of_awaiting ha]
    simp [Outline.accepting]
  | bracket ha hf =>
    refine .inr ⟨?_, .inr rfl⟩
    rw [outline_of_none ha]
    simp [Outline.accepting, Yard.outline, Yard.brackets, hf]
  | operand ha hf hy =>
    refine .inr ⟨?_, .inl rfl⟩
    rw [outline_of_none ha]
    simp [Outline.accepting, Yard.outline, Yard.expected_eq_operator, hy]
  | operation ha hf hy hr => exact .inl ⟨ha, hf, hy, _, hr, rfl⟩

end Run

end Formula
