import Formula.Proofs.Agreement
import Formula.Proofs.Climbing
import Formula.Proofs.Erasure
import Formula.Proofs.Storage
import Formula.Proofs.Substitution
import Formula.Proofs.Truncation

/-! Joining two arrays. What one list of entries stores, and another one behind it, the join of the
two arrays has too: for values that are stored as well as for the tokens of array literals. Main
statement: joining goes along with putting lists of entries one behind the other. -/
namespace Formula
open Course

namespace Entries

/-- The array in which values are stored from the first to the last, each under its key if it has
one. -/
def storeAll (ps : List (Option Value × Value)) : Except Fault Entries :=
  ps.foldlM (fun es p => es.store p.1 p.2) []

/-- The entries that values are stored as. -/
def forValues (ps : List (Option Value × Value)) : Except Fault (List Entry) :=
  ps.mapM fun p => Entry.forValue p.1 p.2

variable {es fs gs : Entries} {ps qs : List (Option Value × Value)}

theorem foldlM_store (es : Entries) (ps : List (Option Value × Value)) :
    ps.foldlM (fun es p => es.store p.1 p.2) es = (forValues ps).map es.concat := by
  induction ps generalizing es with
  | nil => rfl
  | cons p ps ih =>
    rw [List.foldlM_cons, forValues, List.mapM_cons, store_eq]
    cases Entry.forValue p.1 p.2 with
    | error e => rfl
    | ok e =>
      change ps.foldlM (fun es p => es.store p.1 p.2) (es.add e) = _
      rw [ih, ok_bind, ← forValues]
      cases forValues ps <;> rfl

theorem storeAll_eq (ps : List (Option Value × Value)) :
    storeAll ps = (forValues ps).map build := foldlM_store [] ps

/-- Values are stored unless a key is an array. -/
theorem forValues_eq_ok (h : ∀ p ∈ ps, ∀ key, p.1 = some key → key.entries? = none) :
    ∃ hs, forValues ps = .ok hs := by
  induction ps with
  | nil => exact ⟨[], rfl⟩
  | cons p ps ih =>
    obtain ⟨hs, hhs⟩ := ih fun q hq => h q (List.mem_cons_of_mem p hq)
    obtain ⟨e, he⟩ : ∃ e, Entry.forValue p.1 p.2 = .ok e := by
      cases hkey : p.1 with
      | none => exact ⟨_, rfl⟩
      | some key =>
        have hscalar := h p List.mem_cons_self key hkey
        cases key <;> first | exact ⟨_, rfl⟩ | cases hscalar
    refine ⟨e :: hs, ?_⟩
    rw [forValues, List.mapM_cons, he, ok_bind, ← forValues, hhs]
    rfl

theorem forValues_append (ps qs : List (Option Value × Value)) :
    forValues (ps ++ qs) = forValues ps >>= fun hs => (forValues qs).map (hs ++ ·) := by
  rw [forValues, List.mapM_append]
  apply bind_congr
  intro hs _
  cases hqs : List.mapM (fun p : Option Value × Value => Entry.forValue p.1 p.2) qs with
  | error e => rw [forValues, hqs]; rfl
  | ok gs => rw [forValues, hqs]; rfl

/-- What is stored behind something else is joined to it. -/
theorem storeAll_append (ps qs : List (Option Value × Value)) :
    storeAll (ps ++ qs) = storeAll ps >>= fun es => (storeAll qs).map es.concat := by
  rw [storeAll_eq, forValues_append, storeAll_eq, storeAll_eq, map_bind, bind_map]
  apply bind_congr
  intro hs _
  rw [map_map, map_map]
  congr 1
  funext gs
  exact (build_append hs gs).trans (concat_build (build hs) gs).symm

theorem get?_concat (es : Entries) (h : fs.keys.Nodup) (k : String) :
    (es.concat fs).get? k = (fs.get? k).or (es.get? k) := by
  rw [get?_concat_latest, latest_of_nodup h]

/-- A key of the first of two joined arrays stays where it is. -/
theorem keyed_concat (es fs : Entries) {i : Nat} {k : String} {u : Value}
    (h : es[i]? = some (.keyed k u)) : ∃ w, (es.concat fs)[i]? = some (.keyed k w) := by
  have hi : i < es.length := (List.getElem?_eq_some_iff.mp h).1
  have hkey := key?_concat es fs hi
  rw [h] at hkey
  obtain ⟨e, he, hk⟩ := Option.map_eq_some_iff.mp hkey
  cases e with
  | positional w => cases hk
  | keyed l w =>
    cases hk
    exact ⟨w, he⟩

end Entries

/-- The entry that an item of an array literal is stored as. -/
def Item.entry (env : Environment) : Item → Except Fault Entry
  | .plain x _ => (x.eval env).map .positional
  | .keyed key x _ => do
    let k ← key.eval env
    let v ← x.eval env
    Entry.forValue (some k) v

theorem Tree.evalItem_eq_ok {env : Environment} {es fs : Entries} {i : Item} :
    Tree.evalItem env es i = .ok fs ↔ ∃ e, i.entry env = .ok e ∧ es.add e = fs := by
  cases i with
  | plain x s =>
    rw [Tree.evalItem, Item.entry]
    cases x.eval env with
    | error e => simp
    | ok v =>
      constructor
      · rintro ⟨⟩
        exact ⟨_, rfl, rfl⟩
      · rintro ⟨e, ⟨⟩, rfl⟩
        rfl
  | keyed key x s =>
    rw [Tree.evalItem, Item.entry]
    cases key.eval env with
    | error e => simp
    | ok k =>
      cases x.eval env with
      | error e => simp
      | ok v => rw [ok_bind, ok_bind, ok_bind, ok_bind, Entries.store_eq, mapError_eq_ok, map_eq_ok]

/-- What the tokens of entries store in an array, up to a comma or to the end. -/
structure Lists (as : List Token) (hs : Environment → Except Fault (List Entry)) : Prop where
  continues : ∀ env y fs s t rest d, t.kind = .comma →
    ((on (Yard.inside (.array fs none) s y)).steps env (as ++ t :: rest) = .ok d ↔
      ∃ gs, hs env = .ok gs ∧
        (on (Yard.inside (.array (fs.concat gs) none) s y)).steps env rest = .ok d)
  closes : ∀ env y fs s t d, t.kind = .arrayClose →
    ((on (Yard.inside (.array fs none) s y)).steps env (as ++ [t]) = .ok d ↔
      ∃ gs, hs env = .ok gs ∧ on (Run.operand (.array (fs.concat gs)) y) = d)

/-- The entry that the tokens of one entry store does not depend on the token behind them. -/
theorem Stores.lists {es : List Token} {item : Span → Item} (h : Stores es item)
    (hspan : ∀ env s, (item s).entry env = (item default).entry env) :
    Lists es fun env => ((item default).entry env).map fun e => [e] where
  continues env y fs s t rest d ht := by
    rw [h.continues env y fs s t rest ht, bind_eq_ok]
    simp only [Tree.evalItem_eq_ok, hspan, map_eq_ok]
    constructor
    · rintro ⟨_, ⟨e, he, rfl⟩, hd⟩
      exact ⟨[e], ⟨e, he, rfl⟩, hd⟩
    · rintro ⟨_, ⟨e, he, rfl⟩, hd⟩
      exact ⟨fs.add e, ⟨e, he, rfl⟩, hd⟩
  closes env y fs s t d ht := by
    rw [h.closes env y fs s t ht]
    simp only [map_eq_ok, Tree.evalItem_eq_ok, hspan]
    constructor
    · rintro ⟨_, ⟨e, he, rfl⟩, hd⟩
      exact ⟨[e], ⟨e, he, rfl⟩, hd⟩
    · rintro ⟨_, ⟨e, he, rfl⟩, hd⟩
      exact ⟨fs.add e, ⟨e, he, rfl⟩, hd⟩

/-- Entries behind a comma are stored behind what is before it. -/
theorem Lists.append {as bs : List Token} {m : Token}
    {hs gs : Environment → Except Fault (List Entry)} (ha : Lists as hs) (hm : m.kind = .comma)
    (hb : Lists bs gs) :
    Lists (as ++ m :: bs) fun env => hs env >>= fun es => (gs env).map (es ++ ·) where
  continues env y fs s t rest d ht := by
    rw [List.append_assoc, List.cons_append, ha.continues _ _ _ _ _ _ _ hm]
    simp only [hb.continues _ _ _ _ _ _ _ ht, bind_eq_ok, map_eq_ok]
    constructor
    · rintro ⟨es, hes, fs', hfs', hd⟩
      exact ⟨es ++ fs', ⟨es, hes, fs', hfs', rfl⟩, by rwa [Entries.concat_append]⟩
    · rintro ⟨_, ⟨es, hes, fs', hfs', rfl⟩, hd⟩
      exact ⟨es, hes, fs', hfs', by rwa [Entries.concat_append] at hd⟩
  closes env y fs s t d ht := by
    rw [List.append_assoc, List.cons_append, ha.continues _ _ _ _ _ _ _ hm]
    simp only [hb.closes _ _ _ _ _ _ ht, bind_eq_ok, map_eq_ok]
    constructor
    · rintro ⟨es, hes, fs', hfs', hd⟩
      exact ⟨es ++ fs', ⟨es, hes, fs', hfs', rfl⟩, by rwa [Entries.concat_append]⟩
    · rintro ⟨_, ⟨es, hes, fs', hfs', rfl⟩, hd⟩
      exact ⟨es, hes, fs', hfs', by rwa [Entries.concat_append] at hd⟩

theorem Derives.lists_entry {as : List Token} (h : Derives .entry as) : ∃ hs, Lists as hs := by
  have hspelled : Spelled (as.length + 1) := (climbed _).spelled
  cases h with
  | value only =>
    obtain ⟨x, hx⟩ := hspelled _ (Nat.lt_succ_self _) only
    exact ⟨_, hx.stores.lists fun _ _ => rfl⟩
  | @pair ks t es key ht value =>
    obtain ⟨k, hk⟩ := hspelled ks (by simp) key
    obtain ⟨x, hx⟩ := hspelled es (by simp; omega) value
    exact ⟨_, (hk.stores_pair ht hx).lists fun _ _ => rfl⟩

/-- The tokens of entries store the same wherever they stand. -/
theorem Derives.lists {as : List Token} (h : Derives .entries as) : ∃ hs, Lists as hs := by
  generalize hp : Phrase.entries = p at h
  induction h with
  | lastEntry only _ => exact only.lists_entry
  | entry first ht _ _ ih =>
    obtain ⟨hs, hhs⟩ := first.lists_entry
    obtain ⟨gs, hgs⟩ := ih hp
    exact ⟨_, hhs.append ht hgs⟩
  | _ => cases hp

/-- An array literal with entries. -/
inductive Bracketed (as : List Token) : List Token → Prop
  | intro {o c} (ho : o.kind = .arrayOpen) (hc : c.kind = .arrayClose) :
      Bracketed as (o :: (as ++ [c]))

section

variable {env : Environment} {as bs xs ys : List Token} {m p : Token}
  {hs gs : Environment → Except Fault (List Entry)}

/-- An array literal puts the array on the stack that its entries make. -/
theorem Bracketed.steps (h : Bracketed as xs) (ha : Lists as hs) {y : Yard}
    (hy : y.expectsOperand = true) {d : Course} :
    (on y).steps env xs = .ok d ↔
      ∃ es, hs env = .ok es ∧ on (Run.operand (.array (Entries.build es)) y) = d := by
  obtain ⟨ho, hc⟩ := h
  rw [steps_cons, step_arrayOpen ho hy, ok_bind, ha.closes _ _ _ _ _ _ hc]
  rfl

/-- At the end of an evaluation its one value is the result. -/
theorem finish_operand (v : Value) (last : Token) :
    (on (Run.operand v .empty)).finish env last = .ok v := rfl

/-- At the end of an evaluation the one operator that waits takes the two values. -/
theorem finish_pushInfix {op : Kind} (hop : op.isPrefixOperator = false) (s : Span) (u v : Value)
    (last : Token) :
    (on (Run.operand v ((Run.operand u .empty).pushInfix op s))).finish env last =
      (env.infixRule op u v).mapError (Fault.orSpan · s) := by
  obtain ⟨f, hrest, hf⟩ := finish_resumes env last
  refine (hrest _ rfl rfl).trans ?_
  rw [Yard.yield_binary hop (Kind.rightLevel_pos op) Yard.waits_empty.floor, bind_bind]
  cases (env.infixRule op u v).mapError (Fault.orSpan · s) with
  | error e => rfl
  | ok r =>
    have hr : (Run.operand r .empty).yield env 0 = .ok (Run.operand r .empty) :=
      Yard.yield_of_guarded (Yard.reduced_empty.guarded 0)
    rw [ok_bind, hr, ok_bind, hf]

theorem Bracketed.evaluateTokens (h : Bracketed as xs) (ha : Lists as hs)
    (hl : WithinLimits env xs) {es : List Entry} (hes : hs env = .ok es) :
    evaluateTokens env xs = .ok (.array (Entries.build es)) := by
  have hne : xs ≠ [] := by
    rintro rfl
    cases h
  rw [evaluateTokens_eq_ok hne hl]
  exact ⟨_, (h.steps ha rfl).mpr ⟨es, hes, rfl⟩, finish_operand _⟩

theorem infixRule_concat (h : env.hasOperator .concat = false) (es fs : Entries) :
    env.infixRule .concat (.array es) (.array fs) = .ok (.array (es.concat fs)) := by
  rw [Environment.infixRule, Environment.get?_of_hasOperator h]
  rfl

/-- Two joined array literals have the value of their joined arrays. -/
theorem evaluateTokens_joined (ha : Lists as hs) (hb : Lists bs gs) (hx : Bracketed as xs)
    (hp : p.kind = .concat) (hy : Bracketed bs ys) (henv : env.hasOperator .concat = false)
    {v : Value} (h : evaluateTokens env (xs ++ p :: ys) = .ok v) :
    ∃ es fs, hs env = .ok es ∧ gs env = .ok fs ∧
      v = .array ((Entries.build es).concat (Entries.build fs)) := by
  obtain ⟨d, hd, hv⟩ := (evaluateTokens_eq_ok (by simp) (withinLimits_of_eq_ok h) v).mp h
  rw [steps_append] at hd
  obtain ⟨c, hc, hd⟩ := bind_eq_ok.mp hd
  obtain ⟨es, hes, rfl⟩ := (hx.steps ha rfl).mp hc
  have hop : p.kind.isInfixOperator = true := by rw [hp]; rfl
  have hyield : (Run.operand (.array (Entries.build es)) .empty).yield env p.kind.level =
      .ok (Run.operand (.array (Entries.build es)) .empty) :=
    Yard.yield_of_guarded (Yard.reduced_empty.guarded _)
  rw [steps_cons, step_infixOperator hop rfl, hyield] at hd
  obtain ⟨fs, hfs, rfl⟩ := (hy.steps hb rfl).mp hd
  refine ⟨es, fs, hes, hfs, ?_⟩
  have hvalue := hv p
  rw [finish_pushInfix (Kind.isPrefixOperator_eq_false hop), hp, infixRule_concat henv] at hvalue
  exact (Except.ok.inj hvalue).symm

/-- One array literal with the entries of two has the value of their join. -/
theorem evaluateTokens_merged (ha : Derives .entries as) (hb : Derives .entries bs)
    (hx : Bracketed as xs) (hp : p.kind = .concat) (hy : Bracketed bs ys)
    (henv : env.hasOperator .concat = false) (hm : m.kind = .comma) {us : List Token}
    (hu : Bracketed (as ++ m :: bs) us) (hl : WithinLimits env us) {v : Value}
    (h : evaluateTokens env (xs ++ p :: ys) = .ok v) : evaluateTokens env us = .ok v := by
  obtain ⟨hs, hlists⟩ := ha.lists
  obtain ⟨gs, hlists'⟩ := hb.lists
  obtain ⟨es, fs, hes, hfs, rfl⟩ := evaluateTokens_joined hlists hlists' hx hp hy henv h
  rw [Entries.concat_build, ← Entries.build_append]
  refine hu.evaluateTokens (hlists.append hm hlists') hl ?_
  rw [hes, ok_bind, hfs]
  rfl

end

/-- Joining goes along with putting entries one behind the other. What values store is joined to
what others store before them. So arrays with different keys have the laws of lists: the entries of
the second take the place of those of the first with their keys, and the others come behind. And of
two array literals that are joined, all entries in one literal make the same array. -/
theorem concat_homomorphism :
    (∀ ps qs : List (Option Value × Value),
      (∀ p ∈ ps ++ qs, ∀ key, p.1 = some key → key.entries? = none) →
      ∃ es fs, Entries.storeAll ps = .ok es ∧ Entries.storeAll qs = .ok fs ∧
        Entries.storeAll (ps ++ qs) = .ok (es.concat fs)) ∧
    (∀ es fs gs : Entries, es.keys.Nodup → fs.keys.Nodup → gs.keys.Nodup →
      (es.concat fs).concat gs = es.concat (fs.concat gs) ∧
      Entries.concat [] es = es ∧ es.concat [] = es ∧
      (∀ k, (es.concat fs).get? k = (fs.get? k).or (es.get? k)) ∧
      (es.concat fs).positionals = es.positionals ++ fs.positionals ∧
      ∀ (i : Nat) k u, es[i]? = some (.keyed k u) →
        ∃ w, (es.concat fs)[i]? = some (.keyed k w)) ∧
    ∀ env as bs xs ys us p m v, Derives .entries as → Derives .entries bs →
      Bracketed as xs → p.kind = .concat → Bracketed bs ys →
      m.kind = .comma → Bracketed (as ++ m :: bs) us →
      Environment.hasOperator env .concat = false → WithinLimits env us →
      (∀ ts, ts.map Token.unplaced = (xs ++ p :: ys).map Token.unplaced →
        evaluateTokens env ts = .ok v → evaluateTokens env us = .ok v) ∧
      ∀ source source' stream stream',
        tokenize source = .ok stream → tokenize source' = .ok stream' →
        stream.tokens.map Token.unplaced = (xs ++ p :: ys).map Token.unplaced →
        stream'.tokens = us → source'.utf8ByteSize ≤ env.limits.bytes →
        env.evaluate source = .ok v → env.evaluate source' = .ok v := by
  refine ⟨?_, ?_, ?_⟩
  · intro ps qs h
    obtain ⟨hs, hhs⟩ := Entries.forValues_eq_ok fun p hp => h p (List.mem_append_left qs hp)
    obtain ⟨gs, hgs⟩ := Entries.forValues_eq_ok fun q hq => h q (List.mem_append_right ps hq)
    have hps : Entries.storeAll ps = .ok (Entries.build hs) := by
      rw [Entries.storeAll_eq, hhs]
      rfl
    have hqs : Entries.storeAll qs = .ok (Entries.build gs) := by
      rw [Entries.storeAll_eq, hgs]
      rfl
    refine ⟨_, _, hps, hqs, ?_⟩
    rw [Entries.storeAll_append, hps, hqs]
    rfl
  · intro es fs gs hes hfs hgs
    exact ⟨Entries.concat_assoc es hfs gs, Entries.nil_concat hes, rfl,
      Entries.get?_concat es hfs, Entries.positionals_concat es fs,
      fun i k u h => Entries.keyed_concat es fs h⟩
  · intro env as bs xs ys us p m v has hbs hxs hp hys hm hus henv hl
    have hmerged : ∀ ts, ts.map Token.unplaced = (xs ++ p :: ys).map Token.unplaced →
        evaluateTokens env ts = .ok v → evaluateTokens env us = .ok v := by
      intro ts hts hv
      rw [evaluateTokens_of_unplaced_eq hts] at hv
      exact evaluateTokens_merged has hbs hxs hp hys henv hm hus hl hv
    refine ⟨hmerged, ?_⟩
    rintro source source' stream stream' hstream hstream' hts rfl hbytes hv
    have hless : source.utf8ByteSize ≤ env.limits.bytes := by
      by_contra hlt
      rw [Environment.evaluate, if_pos (Nat.not_le.mp hlt)] at hv
      cases hv
    rw [Environment.evaluate_of_le hless, hstream] at hv
    rw [Environment.evaluate_of_le hbytes, hstream']
    exact hmerged _ hts hv

/-- The entries of `['k'->null,'k'->true]`. -/
def keyedNull : List Token :=
  [⟨.literal, .value (.text "k"), ⟨1, 4, 1, 2⟩⟩, .bare .pairArrow ⟨4, 6, 1, 5⟩,
    ⟨.literal, .value .null, ⟨6, 10, 1, 7⟩⟩]

def keyedTrue : List Token :=
  [⟨.literal, .value (.text "k"), ⟨11, 14, 1, 12⟩⟩, .bare .pairArrow ⟨14, 16, 1, 15⟩,
    ⟨.literal, .value (.bool true), ⟨16, 20, 1, 17⟩⟩]

def inBrackets (ts : List Token) : List Token :=
  .bare .arrayOpen ⟨0, 1, 1, 1⟩ :: (ts ++ [.bare .arrayClose ⟨20, 21, 1, 21⟩])

theorem derives_pair {k a v : Token} (hk : k.kind = .literal) (ha : a.kind = .pairArrow)
    (hv : v.kind = .literal) : Derives .entries [k, a, v] := by
  have key : Derives .expr [k] := .expr_of_term (.plain (.atom (.inr (.inl hk))))
  have value : Derives .expr [v] := .expr_of_term (.plain (.atom (.inr (.inl hv))))
  exact .lastEntry (.pair key ha value)

theorem concat_homomorphism_keyed :
    Entries.storeAll [(some (.text "k"), .null)] = .ok [.keyed "k" .null] ∧
    Entries.storeAll [(some (.text "k"), .null), (some (.text "k"), .bool true)] =
      .ok (Entries.concat [.keyed "k" .null] [.keyed "k" (.bool true)]) ∧
    Entries.concat [.keyed "k" .null] [.keyed "k" (.bool true)] = [.keyed "k" (.bool true)] ∧
    (Entries.concat [.keyed "k" .null] [.keyed "k" (.bool true)]).get? "k" =
      some (.bool true) ∧
    Environment.standard.evaluate "['k'->null]||['k'->true]" =
      .ok (.array [.keyed "k" (.bool true)]) ∧
    Environment.standard.evaluate "['k'->null,'k'->true]" =
      .ok (.array [.keyed "k" (.bool true)]) := by
  have hmain := concat_homomorphism
  have hkeys : ∀ p ∈ [(some (Value.text "k"), Value.null), (some (.text "k"), .bool true)],
      ∀ key, p.1 = some key → key.entries? = none := by
    intro p hp key hkey
    simp only [List.mem_cons, List.not_mem_nil, or_false] at hp
    rcases hp with rfl | rfl <;> cases hkey <;> rfl
  obtain ⟨es, fs, hes, hfs, hstored⟩ :=
    hmain.1 [(some (.text "k"), .null)] [(some (.text "k"), .bool true)] hkeys
  cases hes
  cases hfs
  have hnull : (Entries.keys [.keyed "k" .null]).Nodup := by simp
  have htrue : (Entries.keys [.keyed "k" (.bool true)]).Nodup := by simp
  have hget := (hmain.2.1 _ _ [] hnull htrue List.nodup_nil).2.2.2.1 "k"
  have hjoined : Environment.standard.evaluate "['k'->null]||['k'->true]" =
      .ok (.array [.keyed "k" (.bool true)]) := by cbv
  obtain ⟨stream, hstream, hsays⟩ : ∃ stream, tokenize "['k'->null]||['k'->true]" = .ok stream ∧
      stream.tokens.map Token.unplaced = (inBrackets keyedNull ++
        .bare .concat default :: inBrackets keyedTrue).map Token.unplaced :=
    ⟨_, by cbv, rfl⟩
  have hus : tokenize "['k'->null,'k'->true]" = .ok (.ofTokens
      (inBrackets (keyedNull ++ .bare .comma ⟨10, 11, 1, 11⟩ :: keyedTrue))) := by cbv
  have hlimits : WithinLimits .standard
      (inBrackets (keyedNull ++ .bare .comma ⟨10, 11, 1, 11⟩ :: keyedTrue)) :=
    withinLimits_of_eq_ok (v := .array [.keyed "k" (.bool true)]) rfl
  refine ⟨rfl, hstored, rfl, hget, hjoined, ?_⟩
  exact (hmain.2.2 .standard keyedNull keyedTrue _ _ _ (.bare .concat default) _ _
    (derives_pair rfl rfl rfl) (derives_pair rfl rfl rfl) (.intro rfl rfl) rfl (.intro rfl rfl)
    rfl (.intro rfl rfl) rfl hlimits).2 _ _ stream _ hstream hus hsays rfl (by decide) hjoined

end Formula
