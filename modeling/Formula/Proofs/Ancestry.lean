import Formula.Proofs.Course
import Mathlib.Data.List.Induction

/-! Which tokens the things on the stacks come from. Main statement: behind the tokens that a run
has taken, its operators are some of them, its brackets are those that the tokens leave open, and
what waits for a parenthesis is the last of them. -/
namespace Formula

/-- What opens a bracket at `t`: a call is opened by its name. -/
def openerAt (previous : Option Token) (t : Token) : Token :=
  match previous with
  | some call => if call.kind = .functionCall then call else t
  | none => t

/-- The openers of the brackets that are open behind one more token, the innermost first. -/
def openersNext (previous : Option Token) (openers : List Token) (t : Token) : List Token :=
  if t.kind.isOpener then openerAt previous t :: openers
  else if t.kind.isCloser then openers.tail
  else openers

def openersFrom (previous : Option Token) (openers : List Token) : List Token → List Token
  | [] => openers
  | t :: ts => openersFrom (some t) (openersNext previous openers t) ts

/-- The openers of the brackets that the tokens leave open, the innermost first. -/
def openers (ts : List Token) : List Token := openersFrom none [] ts

theorem openersFrom_concat (previous : Option Token) (os : List Token) (ts : List Token)
    (t : Token) :
    openersFrom previous os (ts ++ [t]) =
      openersNext (ts.getLast?.or previous) (openersFrom previous os ts) t := by
  induction ts generalizing previous os with
  | nil => rfl
  | cons u us ih =>
    rw [List.cons_append, openersFrom, ih, openersFrom]
    cases us with
    | nil => rfl
    | cons v vs => simp [List.getLast?_cons]

theorem openers_concat (ts : List Token) (t : Token) :
    openers (ts ++ [t]) = openersNext ts.getLast? (openers ts) t := by
  rw [openers, openersFrom_concat, Option.or_none, openers]

theorem mem_of_mem_openers {ts : List Token} {o : Token} (h : o ∈ openers ts) : o ∈ ts := by
  induction ts using List.reverseRecOn with
  | nil => cases h
  | append_singleton ts t ih =>
    rw [List.mem_append, List.mem_singleton]
    rw [openers_concat, openersNext] at h
    split at h
    · rcases List.mem_cons.mp h with rfl | h
      · unfold openerAt
        split
        · rename_i call hcall
          split
          · exact .inl (List.mem_of_getLast? hcall)
          · exact .inr rfl
        · exact .inr rfl
      · exact .inl (ih h)
    · split at h
      · exact .inl (ih (List.mem_of_mem_tail h))
      · exact .inl (ih h)

/-- Only brackets change what is open. -/
theorem openers_of_role {t : Token} (ho : t.kind.role ≠ .opener) (hc : t.kind.role ≠ .closer)
    (ts : List Token) : openers (ts ++ [t]) = openers ts := by
  simp [openers_concat, openersNext, Kind.isOpener, Kind.isCloser, ho, hc]

/-- The bracket was opened at the token, and by it if it belongs to a call. -/
structure Frame.OpenedBy (f : Frame) (t : Token) : Prop where
  opened : f.opened = t.span
  call : ∀ name args, f.collected = .call name args → t.kind = .functionCall ∧ t.name = name

theorem Frame.OpenedBy.receives {f : Frame} {o : Token} {k : Kind} {v : Value}
    {collected : Collected} (h : f.OpenedBy o) (hc : f.collected.Receives k v collected) :
    Frame.OpenedBy { f with collected } o := by
  refine ⟨h.opened, ?_⟩
  rintro name args rfl
  generalize hfc : f.collected = before at hc
  cases hc
  exact h.call _ _ hfc

/-- Everything on the stacks comes from the tokens. -/
structure Course.Descends (c : Course) (ts : List Token) : Prop where
  operators : ∀ op s, .operator op s ∈ c.yard.operators → ∃ t ∈ ts, t.kind = op ∧ t.span = s
  frames : List.Forall₂ Frame.OpenedBy c.yard.frames (openers ts)
  awaiting : ∀ call, c.awaiting = some call ↔ ts.getLast? = some call ∧ call.kind = .functionCall

namespace Course

variable {env : Environment} {c d : Course} {y z w : Yard} {t : Token} {ts : List Token}

theorem descends_start : start.Descends [] :=
  ⟨by rintro _ _ ⟨⟩, .nil, by simp [start]⟩

theorem openerAt_self (h : c.Descends ts) (ha : c.awaiting = none) (t : Token) :
    openerAt ts.getLast? t = t := by
  unfold openerAt
  split
  · rename_i call hcall
    refine if_neg fun hk => ?_
    rw [(h.awaiting call).mpr ⟨hcall, hk⟩] at ha
    cases ha
  · rfl

theorem operators_of_reduce (hw : y.reduce env = .ok w) :
    ∀ o ∈ w.operators, o ∈ y.operators := by
  obtain ⟨seg, vs, hs, -⟩ := Yard.reduce_eq_ok hw
  intro o ho
  rw [hs]
  exact List.mem_append_right _ ho

theorem operators_of_closeFrame (y : Yard) : ∀ o ∈ y.closeFrame.2.operators, o ∈ y.operators := by
  intro o ho
  unfold Yard.closeFrame at ho
  dsimp only at ho
  split at ho
  · rename_i hops
    rw [hops]
    exact List.mem_cons_of_mem _ ho
  · exact ho

/-- A closed bracket leaves the stacks below it. -/
theorem stacks_of_onClose {time : Nat} (hz : Run.onClose env y t = .ok (z, time)) :
    (∀ o ∈ z.operators, o ∈ y.operators) ∧ z.frames = y.frames.tail := by
  obtain ⟨f, fs, hf, -, ⟨-, v, -, rfl⟩ | ⟨-, -, w, u, vs, v, hw, -, -, -, rfl⟩⟩ :=
    Run.onClose_eq_ok hz
  · exact ⟨operators_of_closeFrame y, rfl⟩
  · have hkept : w.frames = y.frames := (Yard.frames_reduce hw).1
    refine ⟨fun o ho => operators_of_reduce hw o ?_, congrArg List.tail hkept⟩
    exact operators_of_closeFrame { w with values := vs } o ho

theorem operators_of_onOpen {collected : Collected} (hz : Course.onOpen y t collected = .ok z) :
    ∀ o ∈ z.operators, o = .marker ∨ o ∈ y.operators := by
  obtain ⟨-, rfl⟩ := onOpen_eq_ok.mp hz
  exact fun o ho => List.mem_cons.mp ho

/-- A token puts no operator on the stack but itself. -/
theorem Moves.operators (h : c.Moves env t d) :
    ∀ o ∈ d.yard.operators, o = .marker ∨ o = .operator t.kind t.span ∨ o ∈ c.yard.operators := by
  intro o ho
  cases h with
  | operand | name => exact .inr (.inr ho)
  | called _ _ hz => exact (operators_of_onOpen hz o ho).imp_right .inr
  | opened _ _ _ hz => exact (operators_of_onOpen hz o ho).imp_right .inr
  | separated _ _ hz =>
    obtain ⟨-, w, _, _, _, _, _, hw, -, -, -, -, rfl⟩ := hz
    exact .inr (.inr (operators_of_reduce hw o ho))
  | closed _ _ hz => exact .inr (.inr ((stacks_of_onClose hz).1 o ho))
  | prefixed => exact .inr (List.mem_cons.mp ho)
  | operation _ _ _ hw =>
    obtain ⟨seg, ops, vs, hops, -, -, rfl⟩ := Yard.pushBinary_eq_ok hw
    rw [hops]
    exact .inr ((List.mem_cons.mp ho).imp_right (List.mem_append_right seg))

/-- What opens a bracket opens the frame that is put on the stack. -/
theorem Descends.opened {collected : Collected} {o : Token} (h : c.Descends ts)
    (ho : o = openerAt ts.getLast? t) (hk : t.kind.isOpener = true)
    (hcall : ∀ name args, collected = .call name args → o.kind = .functionCall ∧ o.name = name)
    (hz : Course.onOpen c.yard o collected = .ok z) :
    List.Forall₂ Frame.OpenedBy z.frames (openers (ts ++ [t])) := by
  obtain ⟨-, rfl⟩ := onOpen_eq_ok.mp hz
  rw [openers_concat, openersNext, if_pos hk, ← ho]
  exact .cons ⟨rfl, hcall⟩ h.frames

/-- One more token keeps the frames in line with what is open. -/
theorem Descends.frames_of_moves (h : c.Descends ts) (hm : c.Moves env t d) :
    List.Forall₂ Frame.OpenedBy d.yard.frames (openers (ts ++ [t])) := by
  have hopen := h.frames
  cases hm with
  | operand _ hk _ =>
    have hrole : t.kind.role = .operand := by rcases hk with hk | hk | hk <;> rw [hk] <;> rfl
    rwa [openers_of_role (by simp [hrole]) (by simp [hrole])]
  | name _ hk _ =>
    have hrole : t.kind.role = .operand := by rw [hk]; rfl
    rwa [openers_of_role (by simp [hrole]) (by simp [hrole])]
  | @called call z ha hk hz =>
    obtain ⟨hlast, hcall⟩ := (h.awaiting call).mp ha
    refine h.opened (by simp [openerAt, hlast, hcall]) (by rw [hk]; rfl) ?_ hz
    rintro name args ⟨⟩
    exact ⟨hcall, rfl⟩
  | opened ha hk hc hz =>
    refine h.opened (openerAt_self h ha t).symm hk ?_ hz
    rcases hc with rfl | rfl <;> rintro name args ⟨⟩
  | separated _ hk hz =>
    obtain ⟨-, w, f, fs, v, vs, collected, -, hf, -, -, hreceives, rfl⟩ := hz
    have hrole : t.kind.role = .separator := eq_of_beq hk
    rw [openers_of_role (by simp [hrole]) (by simp [hrole])]
    rw [hf] at hopen
    generalize openers ts = os at hopen
    cases hopen with
    | cons ho hos => exact .cons (ho.receives hreceives) hos
  | @closed z _ _ hk hz =>
    have hrole : t.kind.role = .closer := eq_of_beq hk
    have hframes : (on z).yard.frames = c.yard.frames.tail := (stacks_of_onClose hz).2
    rw [hframes, openers_concat, openersNext, if_neg (by simp [Kind.isOpener, hrole]), if_pos hk]
    generalize openers ts = os at hopen
    generalize c.yard.frames = fs at hopen
    cases hopen with
    | nil => exact .nil
    | cons _ hos => exact hos
  | prefixed _ hk _ =>
    have hrole : t.kind.role = .operator := eq_of_beq (Kind.isOperator_of_isPrefixOperator hk)
    rwa [openers_of_role (by simp [hrole]) (by simp [hrole])]
  | operation _ hk _ hw =>
    have hrole : t.kind.role = .operator := eq_of_beq (Bool.and_eq_true_iff.mp hk).1
    obtain ⟨seg, ops, vs, -, -, -, rfl⟩ := Yard.pushBinary_eq_ok hw
    rwa [openers_of_role (by simp [hrole]) (by simp [hrole])]

/-- One more token keeps the stacks where they come from. -/
theorem Descends.step (h : c.Descends ts) (hd : c.step env t = .ok d) : d.Descends (ts ++ [t]) := by
  have hm := moves_of_step hd
  refine ⟨fun op s ho => ?_, h.frames_of_moves hm, fun call => ?_⟩
  · rcases hm.operators _ ho with ho | ho | ho
    · cases ho
    · cases ho
      exact ⟨t, by simp, rfl, rfl⟩
    · obtain ⟨u, hu, hop⟩ := h.operators op s ho
      exact ⟨u, List.mem_append_left _ hu, hop⟩
  · rw [hm.awaiting, List.getLast?_concat, Option.some_inj]
    split
    · rename_i hk
      rw [Option.some_inj]
      refine ⟨fun ht => ⟨ht, by rw [← ht, hk]⟩, fun ht => ht.1⟩
    · rename_i hk
      refine ⟨by rintro ⟨⟩, ?_⟩
      rintro ⟨rfl, hcall⟩
      exact absurd hcall hk

end Course

namespace Run

variable {env : Environment} {r q : Run} {t : Token} {ts us : List Token}

/-- A step that is taken is a step of the course. -/
theorem course_of_step (h : r.step env t = .ok q) : r.course.step env t = .ok q.course := by
  have hlimits : ∀ e, ¬ r.Limited env.limits t e := by
    intro e he
    cases h.symm.trans he.step
  rw [← step_course hlimits, h]
  rfl

theorem descends_of_steps (h : r.course.Descends ts) (hs : r.steps env us = .ok q) :
    q.course.Descends (ts ++ us) := by
  induction us generalizing r ts with
  | nil =>
    cases hs
    rwa [List.append_nil]
  | cons u us ih =>
    rw [steps_cons] at hs
    obtain ⟨p, hp, hs⟩ := bind_eq_ok.mp hs
    have hmore := ih (h.step (course_of_step hp)) hs
    rwa [List.append_assoc] at hmore

/-- Behind the tokens that a run has taken, everything on its stacks comes from them. -/
theorem descends (hs : start.steps env ts = .ok r) : r.course.Descends ts := by
  have hstart : start.course.Descends [] := Course.descends_start
  exact descends_of_steps hstart hs

/-- Where an operator of a run fails, it is one of the tokens. -/
theorem token_of_halts {op : Kind} {s : Span} {d : Fault}
    (hr : start.steps env ts = .ok r) (h : r.yard.Halts env op s d) :
    ∃ u ∈ ts, r.yard.Halts env u.kind u.span d ∧ s = u.span := by
  obtain ⟨u, hu, rfl, rfl⟩ := (descends hr).operators op s h.mem
  exact ⟨u, hu, h, rfl⟩

/-- The innermost bracket of a run is open since its opener. -/
theorem opener_of_frame {f : Frame} {fs : List Frame} (hr : start.steps env ts = .ok r)
    (hf : r.yard.frames = f :: fs) : ∃ o, (openers ts).head? = some o ∧ f.OpenedBy o := by
  have hframes : List.Forall₂ Frame.OpenedBy r.yard.frames (openers ts) := (descends hr).frames
  rw [hf] at hframes
  generalize openers ts = os at hframes
  cases hframes with
  | cons ho _ => exact ⟨_, rfl, ho⟩

end Run
end Formula
