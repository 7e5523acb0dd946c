import Formula.Proofs.Balance
import Formula.Proofs.Brackets

/-! Evaluation is the evaluation of the syntax tree. Precedence climbing splits an expression where
an operator no longer belongs to it, and there the waiting operators of its tokens give way. Main
statement: within its limits, an evaluation of an expression returns what its tree does. -/
namespace Formula
open Course Climbing

/-- The parser ends in front of operations that bind less strongly than `m`, and the tree is that of
the tokens before them, on all stacks whose operators wait for something at least that strong. -/
inductive Splits (m : Nat) (es : List Token) (result : List Token → Option (Tree × List Token)) :
    Prop
  | intro {x as bs} (hes : es = as ++ bs) (hne : as ≠ []) (hbs : Derives .operations bs)
      (hm : nextLevel bs < m)
      (parses : ∀ rest, nextLevel rest = 0 → result rest = some (x, bs ++ rest))
      (follows : ∀ env y, y.Waits → y.Guarded m → Follows env x as (nextLevel bs) y) :
      Splits m es result

/-- Expressions with fewer than `n` tokens are split at every level. -/
def Climbed (n : Nat) : Prop :=
  ∀ es : List Token, es.length < n → Derives .expr es →
    ∀ m, 0 < m → Splits m es fun rest => outcome (parse m (es ++ rest))

theorem nextLevel_append {as rest : List Token} (h : nextLevel rest = 0) :
    nextLevel (as ++ rest) = nextLevel as := by
  cases as with
  | nil => exact h
  | cons t as => rfl

/-- Only an empty list of operations leaves nothing at the lowest level. -/
theorem operations_eq_nil {bs : List Token} (h : Derives .operations bs) (hb : nextLevel bs < 1) :
    bs = [] := by
  cases h with
  | done => rfl
  | operation ht _ _ =>
    have hpos := Kind.level_pos ht
    rw [nextLevel_infixOperator ht] at hb
    omega

theorem Splits.congr {m : Nat} {es : List Token} {r r' : List Token → Option (Tree × List Token)}
    (h : Splits m es r) (hr : ∀ rest, nextLevel rest = 0 → r' rest = r rest) : Splits m es r' := by
  obtain ⟨hes, hne, hbs, hm, parses, follows⟩ := h
  exact ⟨hes, hne, hbs, hm, fun rest h => (hr rest h).trans (parses rest h), follows⟩

theorem Splits.spells {es : List Token}
    (h : Splits 1 es fun rest => outcome (parse 1 (es ++ rest))) :
    ∃ x, Spells es x := by
  obtain @⟨x, as, bs, hes, -, hbs, hm, parses, follows⟩ := h
  obtain rfl := operations_eq_nil hbs hm
  obtain rfl : es = as := by simpa using hes
  exact ⟨x, parses, fun env y hy hr => follows env y hy (hr.guarded 1)⟩

theorem Climbed.spelled {n : Nat} (h : Climbed n) : Spelled n := by
  intro es hn he
  exact (h es hn he 1 Nat.one_pos).spells

theorem Yard.waits_pushPrefix {y : Yard} (h : y.Waits) (op : Kind) (s : Span) :
    (y.pushPrefix op s).Waits := ⟨h.expects, h.floor⟩

theorem Yard.waits_pushInfix {y : Yard} (h : y.Waits) (u : Value) (op : Kind) (s : Span) :
    ((Run.operand u y).pushInfix op s).Waits := ⟨rfl, Nat.le_succ_of_le h.floor⟩

/-- The operator on top waits for what belongs to its right operand. -/
theorem Yard.guarded_of_top {y : Yard} {op : Kind} {s : Span} {ops : List Stacked}
    (h : y.operators = .operator op s :: ops) : y.Guarded op.rightLevel := by
  intro w p qs hw
  cases h.symm.trans hw
  exact Nat.le_refl _

theorem Yard.Guarded.mono {y : Yard} {m p : Nat} (h : y.Guarded m) (hmp : m ≤ p) :
    y.Guarded p := fun w s ops he => Nat.le_trans (h w s ops he) hmp

/-- The parser climbs over the operations behind an operand as long as they bind strongly enough,
and the tree grows by one operator each time. -/
theorem Climbed.climb {n m : Nat} (ih : Climbed n) (hm : 0 < m) {x : Tree} {as os : List Token}
    (hos : Derives .operations os) (hne : as ≠ []) (hn : (as ++ os).length ≤ n)
    (hfollows : ∀ env y, y.Waits → y.Guarded m → Follows env x as (nextLevel os) y) :
    Splits m (as ++ os) fun rest => outcome (Climbing.climb m x (os ++ rest)) := by
  -- on the number of tokens left: the right operand takes at least one of them
  induction hk : os.length using Nat.strongRecOn generalizing x as os with
  | ind k ihk =>
  by_cases hstop : nextLevel os < m
  · refine .intro rfl hne hos hstop ?_ hfollows
    intro rest hrest
    rw [climb_stop (by rw [nextLevel_append hrest]; exact hstop)]
  · cases hos with
    | done => exact absurd hm hstop
    | @operation t cs ds ht right more =>
      rw [nextLevel_infixOperator ht] at hstop hfollows
      have hlen : (cs ++ ds).length < n := by
        have := List.length_pos_iff.mpr hne
        simp only [List.length_append, List.length_cons] at hn ⊢
        omega
      obtain @⟨z, es, bs, hes, hne', hbs, hlevel, parses, follows⟩ :=
        ih (cs ++ ds) hlen (.expr right more) t.kind.rightLevel (Kind.rightLevel_pos _)
      have hlong : bs.length < k := by
        have hl := congrArg List.length hes
        have := List.length_pos_iff.mpr hne'
        simp only [List.length_append, List.length_cons] at hl hk
        omega
      have hsplit : as ++ t :: (cs ++ ds) = (as ++ t :: es) ++ bs := by simp [hes]
      have htree : ∀ env y, y.Waits → y.Guarded m →
          Follows env (.binary t.kind t.span x z) (as ++ t :: es) (nextLevel bs) y := by
        intro env y hy hg
        refine .binary ht hy (hg.mono (by omega)) hlevel (hfollows env y hy hg) fun u => ?_
        exact follows env _ (Yard.waits_pushInfix hy u _ _) (Yard.guarded_of_top rfl)
      have hsplits : Splits m ((as ++ t :: es) ++ bs) fun rest =>
          outcome (Climbing.climb m (.binary t.kind t.span x z) (bs ++ rest)) :=
        ihk bs.length hlong hbs (by simp) (by rw [← hsplit]; exact hn) htree rfl
      rw [hsplit]
      refine hsplits.congr fun rest hrest => ?_
      exact climb_step ht (by omega) (parses rest hrest)

/-- Every expression is split at every level. -/
theorem climbed (n : Nat) : Climbed n := by
  induction n with
  | zero =>
    intro es hn
    exact absurd hn (Nat.not_lt_zero _)
  | succ n ih =>
    intro es hn he m hm
    cases he with
    | @expr as os first more =>
    cases first with
    | plain only =>
      have hlen : as.length ≤ n := by
        simp only [List.length_append] at hn
        omega
      obtain ⟨x, hx⟩ := ih.spelled.primary only hlen
      obtain ⟨t, ts, hne, -⟩ := only.begins (by decide)
      have hfollows : ∀ env y, y.Waits → y.Guarded m → Follows env x as (nextLevel os) y :=
        fun env y hy _ => .of_puts (hx.puts env y hy.expects) _
      refine (ih.climb hm more (by simp [hne]) (Nat.le_of_lt_succ hn) hfollows).congr ?_
      intro rest _
      rw [List.append_assoc]
      exact parse_of_operand (hx.parses (os ++ rest))
    | @prefixed t as ht only =>
      have hlen : (as ++ os).length < n := by
        simp only [List.length_append, List.length_cons] at hn ⊢
        omega
      obtain @⟨x, cs, bs, hes, -, hbs, hlevel, parses, follows⟩ :=
        ih (as ++ os) hlen (.expr only more) t.kind.rightLevel (Kind.rightLevel_pos _)
      have hfollows : ∀ env y, y.Waits → y.Guarded m →
          Follows env (.unary t.kind t.span x) (t :: cs) (nextLevel bs) y := by
        intro env y hy _
        refine .unary ht hy hlevel ?_
        exact follows env _ (Yard.waits_pushPrefix hy _ _) (Yard.guarded_of_top rfl)
      have hsplit : (t :: as) ++ os = (t :: cs) ++ bs := by simp [hes]
      rw [hsplit] at hn ⊢
      refine (ih.climb hm hbs (by simp) (Nat.le_of_lt_succ hn) hfollows).congr ?_
      intro rest hrest
      have hoperand : outcome (operand (t :: (as ++ os ++ rest))) =
          some (.unary t.kind t.span x, bs ++ rest) :=
        operand_prefixOperator ht (parses rest hrest)
      rw [← hsplit]
      exact parse_of_operand hoperand

theorem Sentence.spells {ts : List Token} (h : Sentence ts) : ∃ x, Spells ts x :=
  (climbed (ts.length + 1)).spelled ts (Nat.lt_succ_self _) h

/-- At the end the operators that wait take their operands, and the value left over is the
result. -/
theorem finish_resumes (env : Environment) (last : Token) :
    ∃ f, Resumes env 0 [] (fun c => c.finish env last) f ∧
      ∀ v, f (Run.operand v .empty) = .ok v := by
  apply Exists.intro
  constructor
  · intro y hy hf
    simp only [finish, Run.finish, on, hf, hy, Yard.settled_reduce]
    rfl
  · intro v
    rfl

theorem Spells.evaluates {ts : List Token} {x : Tree} (h : Spells ts x) (env : Environment)
    (last : Token) :
    (Course.start.steps env ts >>= fun c => c.finish env last) = x.eval env := by
  obtain ⟨f, hrest, hf⟩ := finish_resumes env last
  refine (h.runs Yard.waits_empty Yard.reduced_empty hrest).trans ?_
  cases x.eval env with
  | error e => rfl
  | ok v => exact hf v

/-- Every expression has a tree, which is what precedence climbing reads, and an evaluation that no
limit stops gives exactly the value or the fault of that tree. -/
theorem evaluateTokens_eq_eval (ts : List Token) (h : Sentence ts) :
    ∃ x hrest, parse 1 ts = some ⟨x, [], hrest⟩ ∧
      ∀ env, WithinLimits env ts → evaluateTokens env ts = x.eval env := by
  obtain ⟨x, hx⟩ := h.spells
  have hparse := hx.parses [] rfl
  rw [List.append_nil] at hparse
  obtain ⟨hrest, hparse⟩ := outcome_eq_some.mp hparse
  refine ⟨x, hrest, hparse, fun env hlimits => ?_⟩
  have hts : ts ≠ [] := by
    rintro rfl
    exact not_sentence_nil h
  rw [evaluateTokens_course hts hlimits]
  exact hx.evaluates env _

/-- A negation and another operand of a conjunction. -/
def negation : List Token :=
  [.bare .not default, .bare .literal default, .bare .and default, .bare .literal default]

theorem evaluateTokens_eq_eval_negation :
    Sentence negation ∧ WithinLimits .empty negation ∧
      ∃ x hrest, parse 1 negation = some ⟨x, [], hrest⟩ ∧
        evaluateTokens .empty negation = x.eval .empty := by
  have hv : evaluateTokens .empty negation = .ok (.bool false) := rfl
  have hs := sentence_of_evaluateTokens hv
  have hl := withinLimits_of_eq_ok hv
  obtain ⟨x, hrest, hp, he⟩ := evaluateTokens_eq_eval negation hs
  exact ⟨hs, hl, x, hrest, hp, he .empty hl⟩

/-- A power goes before a sign on its left, and a sign on its right goes before the power. -/
example :
    outcome (parse 1 [.bare .unaryMinus default, .bare .literal default, .bare .pow default,
        .bare .unaryMinus default, .bare .literal default]) =
      some (.unary .unaryMinus default
        (.binary .pow default (.value .null) (.unary .unaryMinus default (.value .null))), []) := by
  cbv

/-- A negation goes before the power behind its operand. -/
example :
    outcome (parse 1 [.bare .not default, .bare .literal default, .bare .pow default,
        .bare .literal default]) =
      some (.binary .pow default (.unary .not default (.value .null)) (.value .null), []) := by
  cbv

end Formula
