import Formula.Proofs.Neighbours
import Mathlib.Data.Finset.Lattice.Fold

/-! How deep brackets nest, counted on the tokens alone. Behind the tokens that a run has taken,
this is how many brackets the run has open. -/
namespace Formula

/-- The brackets that the tokens leave open. -/
def nesting (ts : List Token) : Nat :=
  ts.countP (·.kind.isOpener) - ts.countP (·.kind.isCloser)

/-- The most brackets that are open at once. -/
def maxNesting (ts : List Token) : Nat :=
  (Finset.range (ts.length + 1)).sup fun i => nesting (ts.take i)

/-- The bracket of the token at the index is one too many if there may be `d` of them. A bracket is
counted where it opens, and that of a call where its name stands. -/
def DeeperAt (d : Nat) (ts : List Token) (i : Nat) : Prop :=
  ∃ t, ts[i]? = some t ∧ (t.kind.isOpener = true ∨ t.kind = .functionCall) ∧
    d ≤ nesting (ts.take i)

theorem Kind.isCloser_of_isOpener {k : Kind} (h : k.isOpener = true) : k.isCloser = false := by
  rcases eq_of_isOpener h with rfl | rfl <;> rfl

section Counts

variable {as bs : List Token} {t : Token} {d i : Nat}

theorem nesting_concat_le (as : List Token) (t : Token) :
    nesting (as ++ [t]) ≤ nesting as + if t.kind.isOpener then 1 else 0 := by
  simp only [nesting, List.countP_append, List.countP_singleton]
  split
  · split <;> omega
  · omega

theorem nesting_concat_call (as : List Token) (h : t.kind = .functionCall) :
    nesting (as ++ [t]) = nesting as := by
  simp [nesting, List.countP_append, h, Kind.isOpener, Kind.isCloser, Kind.role]

theorem nesting_concat_open (h : t.kind.isOpener = true)
    (hle : as.countP (·.kind.isCloser) ≤ as.countP (·.kind.isOpener)) :
    nesting (as ++ [t]) = nesting as + 1 := by
  simp only [nesting, List.countP_append, List.countP_singleton, h, Kind.isCloser_of_isOpener h,
    Bool.false_eq_true, ↓reduceIte]
  omega

theorem deeperAt_iff : DeeperAt d (as ++ t :: bs) as.length ↔
    (t.kind.isOpener = true ∨ t.kind = .functionCall) ∧ d ≤ nesting as := by
  simp [DeeperAt]

/-- Behind the name of a call that does not stand too deep, its parenthesis does not either. -/
theorem nesting_lt_of_call (hlast : as.getLast?.map Token.kind = some .functionCall)
    (h : ∀ j < as.length, ¬ DeeperAt d (as ++ bs) j) : nesting as < d := by
  rcases List.eq_nil_or_concat as with rfl | ⟨as', f, rfl⟩
  · cases hlast
  · rw [List.concat_eq_append] at *
    have hf : f.kind = .functionCall := by simpa using hlast
    rw [nesting_concat_call as' hf]
    by_contra hd
    have hdeeper : DeeperAt d (as' ++ f :: bs) as'.length :=
      deeperAt_iff.mpr ⟨.inr hf, Nat.not_lt.mp hd⟩
    exact h as'.length (by simp) (by simpa using hdeeper)

theorem nesting_le_max (as bs : List Token) : nesting as ≤ maxNesting (as ++ bs) := by
  have hi : as.length ∈ Finset.range ((as ++ bs).length + 1) := by
    rw [Finset.mem_range, List.length_append]
    omega
  have hle := Finset.le_sup (f := fun i => nesting ((as ++ bs).take i)) hi
  simpa [maxNesting] using hle

theorem split_of_getElem? {ts : List Token} (h : ts[i]? = some t) :
    ts = ts.take i ++ t :: ts.drop (i + 1) := by
  obtain ⟨hi, rfl⟩ := List.getElem?_eq_some_iff.mp h
  rw [List.getElem_cons_drop, List.take_append_drop]

/-- Nesting passes a depth only at a bracket. -/
theorem exists_deeperAt {ts : List Token} (h : d < nesting (ts.take i)) :
    ∃ j < i, DeeperAt d ts j := by
  induction i with
  | zero => simp [nesting] at h
  | succ i ih =>
    by_cases hd : d < nesting (ts.take i)
    · obtain ⟨j, hj, hdeeper⟩ := ih hd
      exact ⟨j, by omega, hdeeper⟩
    · cases ht : ts[i]? with
      | none =>
        rw [List.getElem?_eq_none_iff] at ht
        rw [List.take_of_length_le (by omega)] at h hd
        exact absurd h hd
      | some t =>
        rw [List.take_add_one, ht] at h
        have hle := nesting_concat_le (ts.take i) t
        simp only [Option.toList_some] at h
        cases hk : t.kind.isOpener with
        | false =>
          simp only [hk, Bool.false_eq_true, ↓reduceIte] at hle
          omega
        | true =>
          simp only [hk, ↓reduceIte] at hle
          exact ⟨i, by omega, t, ht, .inl hk, by omega⟩

end Counts

namespace Outline

variable {o o' : Outline} {ts : List Token}

/-- A token opens a bracket, or closes one, or neither. -/
theorem length_of_step {k : Kind} (h : o.step k = .ok o') :
    o'.brackets.length + (if k.isCloser then 1 else 0) =
      o.brackets.length + (if k.isOpener then 1 else 0) := by
  cases moves_of_step h with
  | parenthesis _ hk | name _ _ hk | group _ _ hk | array _ _ hk =>
    subst hk
    rfl
  | atom _ _ hk => rcases hk with rfl | rfl | rfl <;> rfl
  | argument _ hk hb | entry _ hk hb | arrow _ hk hb =>
    subst hk
    rw [hb]
    rfl
  | @close b _ _ _ hk hb =>
    subst hk
    rw [hb]
    cases b.isArray <;> rfl
  | prefixed _ _ hk | operation _ hk => cases k <;> first | rfl | cases hk

theorem length_of_steps (h : o.steps ts = .ok o') :
    o'.brackets.length + ts.countP (·.kind.isCloser) =
      o.brackets.length + ts.countP (·.kind.isOpener) := by
  induction ts generalizing o with
  | nil =>
    cases h
    rfl
  | cons t ts ih =>
    rw [steps_cons] at h
    obtain ⟨q, hq, h⟩ := bind_eq_ok.mp h
    have hstep := length_of_step hq
    have hmore := ih h
    simp only [List.countP_cons]
    omega

/-- Behind a bracket that has just been opened, an expression cannot end. -/
theorem not_accepting_of_open {t : Token} (h : start.steps (ts ++ [t]) = .ok accepting) :
    t.kind ≠ .functionCall ∧ t.kind.isOpener = false := by
  have hleads := (leads_of_steps h).2.mp rfl
  simp only [List.getLast?_append, List.getLast?_singleton, Option.some_or, Option.map_some, ne_eq,
    Option.some.injEq] at hleads
  refine ⟨hleads.1, ?_⟩
  have he := hleads.2
  simp only [Scan.expectsOperand, Bool.or_eq_false_iff] at he
  exact he.1.2

end Outline

namespace Sentence

variable {as bs ts : List Token} {t : Token} {d : Nat}

theorem countP_le (h : Sentence (as ++ bs)) :
    as.countP (·.kind.isCloser) ≤ as.countP (·.kind.isOpener) := by
  rw [Outline.sentence_iff, Outline.steps_append] at h
  obtain ⟨o, ho, -⟩ := bind_eq_ok.mp h
  have hcount := Outline.length_of_steps ho
  have hstart : Outline.start.brackets.length = 0 := rfl
  omega

/-- In an expression the parenthesis of a call follows its name. -/
theorem call_opens (h : Sentence (as ++ t :: bs)) (ht : t.kind = .functionCall) :
    ∃ u cs, bs = u :: cs ∧ u.kind = .parenOpen := by
  rw [Outline.sentence_iff] at h
  cases bs with
  | nil => exact absurd ht (Outline.not_accepting_of_open h).1
  | cons u cs =>
    refine ⟨u, cs, rfl, ?_⟩
    have hsplit : as ++ t :: u :: cs = as ++ [t] ++ u :: cs := by simp
    rw [hsplit, Outline.steps_append] at h
    obtain ⟨o, ho, h⟩ := bind_eq_ok.mp h
    rw [Outline.steps_cons] at h
    obtain ⟨p, hp, -⟩ := bind_eq_ok.mp h
    have he : o.expected = .parenthesis := (Outline.leads_of_steps ho).1.mpr (by simp [ht])
    cases Outline.moves_of_step hp <;> simp_all

/-- In an expression the deepest bracket tells whether any is too deep. -/
theorem lt_maxNesting_iff (h : Sentence ts) : d < maxNesting ts ↔ ∃ i, DeeperAt d ts i := by
  constructor
  · intro hd
    obtain ⟨i, -, hi⟩ := Finset.lt_sup_iff.mp hd
    obtain ⟨j, -, hj⟩ := exists_deeperAt hi
    exact ⟨j, hj⟩
  · rintro ⟨i, t, ht, hk, hd⟩
    have hsplit := split_of_getElem? ht
    generalize ts.take i = as at hd hsplit
    generalize ts.drop (i + 1) = bs at hsplit
    subst hsplit
    rcases hk with hk | hk
    · have hmax := nesting_le_max (as ++ [t]) bs
      rw [nesting_concat_open hk h.countP_le, List.append_assoc] at hmax
      exact Nat.lt_of_le_of_lt hd hmax
    · obtain ⟨u, cs, rfl, hu⟩ := h.call_opens hk
      have h' : Sentence (as ++ [t] ++ u :: cs) := by simpa using h
      have hmax := nesting_le_max (as ++ [t] ++ [u]) cs
      rw [nesting_concat_open (by rw [hu]; rfl) h'.countP_le, nesting_concat_call as hk] at hmax
      simp only [List.append_assoc, List.cons_append, List.nil_append] at hmax
      exact Nat.lt_of_le_of_lt hd hmax

end Sentence

/-- A run has as many brackets open as its tokens leave open. -/
theorem Run.length_frames {env : Environment} {ts : List Token} {r : Run}
    (h : start.steps env ts = .ok r) :
    r.yard.frames.length = nesting ts ∧
      ts.countP (·.kind.isCloser) ≤ ts.countP (·.kind.isOpener) := by
  have hcount := Outline.length_of_steps (steps_outline h)
  have hlength : r.outline.brackets.length = r.yard.frames.length := by
    unfold outline
    split <;> simp [Yard.outline, Yard.brackets]
  have hstart : start.outline.brackets.length = 0 := rfl
  rw [nesting]
  omega

end Formula
