import Formula.Json.Conversion
import Formula.Proofs.Depth
import Formula.Proofs.Heredity
import Formula.Proofs.Provenance
import Formula.Proofs.Storage

/-! Keys are different in every array that the language makes, however deep it lies: by the
operations on arrays, from a document, and in an evaluation. Main statement: so it is, what is
stored under a key that is there takes the place of its value alone, and a key finds what was
stored under it last. -/
namespace Formula

namespace Value

/-- An array has different keys. -/
def OwnKeysDistinct : Value → Prop
  | .array es => (Entries.keys es).Nodup
  | _ => True

/-- Every array has different keys, at any depth. -/
def KeysDistinct (v : Value) : Prop := v.Throughout OwnKeysDistinct

variable {v w : Value} {es : Entries}

theorem keysDistinct_array_iff :
    KeysDistinct (.array es) ↔ es.keys.Nodup ∧ ∀ v ∈ es.values, v.KeysDistinct :=
  throughout_array_iff

theorem keysDistinct_of_scalar (h : v.entries? = none) : v.KeysDistinct := by
  refine (throughout_iff_of_scalar h).mpr ?_
  cases v with
  | array es => cases h
  | _ => trivial

theorem KeysDistinct.add (h : KeysDistinct (.array es)) {e : Entry} (he : e.value.KeysDistinct) :
    KeysDistinct (.array (es.add e)) := by
  obtain ⟨hkeys, hvalues⟩ := keysDistinct_array_iff.mp h
  refine keysDistinct_array_iff.mpr ⟨Entries.nodup_keys_add hkeys e, fun v hv => ?_⟩
  rcases Entries.mem_values_add hv with hv | rfl
  · exact hvalues v hv
  · exact he

theorem KeysDistinct.concat (h : KeysDistinct (.array es)) {hs : List Entry}
    (hhs : ∀ e ∈ hs, e.value.KeysDistinct) : KeysDistinct (.array (es.concat hs)) := by
  induction hs generalizing es with
  | nil => exact h
  | cons e hs ih =>
    rw [List.forall_mem_cons] at hhs
    exact ih (h.add hhs.1) hhs.2

theorem keysDistinct_nil : KeysDistinct (.array []) :=
  keysDistinct_array_iff.mpr ⟨List.nodup_nil, fun _ hv => absurd hv List.not_mem_nil⟩

theorem keysDistinct_build {hs : List Entry} (h : ∀ e ∈ hs, e.value.KeysDistinct) :
    KeysDistinct (.array (Entries.build hs)) := keysDistinct_nil.concat h

end Value

namespace Entries

/-- An array that operations have made, and what they have stored, from the first to the last. -/
inductive Made : Entries → List Entry → Prop
  | empty : Made [] []
  | push {es hs} (h : Made es hs) (v : Value) : Made (es.push v) (hs ++ [.positional v])
  | insert {es hs} (h : Made es hs) (k : String) (v : Value) :
      Made (es.insert k v) (hs ++ [.keyed k v])
  | store {es hs fs key v e} (h : Made es hs) (he : Entry.forValue key v = .ok e)
      (hf : es.store key v = .ok fs) : Made fs (hs ++ [e])
  | concat {es hs fs gs} (h : Made es hs) (h' : Made fs gs) : Made (es.concat fs) (hs ++ gs)
  | values (vs : List Value) : Made (.ofValues vs) (vs.map .positional)
  | pairs (ps : List (String × Value)) : Made (.ofPairs ps) (ps.map fun p => .keyed p.1 p.2)

variable {es : Entries} {hs : List Entry}

theorem ofPairs_eq (ps : List (String × Value)) :
    ofPairs ps = build (ps.map fun p => .keyed p.1 p.2) := by
  rw [ofPairs, build, Entries.concat, List.foldl_map]
  rfl

theorem ofValues_eq (vs : List Value) : ofValues vs = build (vs.map .positional) := by
  have hkeys : keys (vs.map .positional) = [] := by simp [keys]
  refine (build_of_nodup ?_).symm
  change (keys (vs.map .positional)).Nodup
  rw [hkeys]
  exact List.nodup_nil

/-- Whatever the operations, the array is what the stored entries make one by one. -/
theorem Made.eq_build (h : Made es hs) : es = build hs := by
  induction h with
  | empty => rfl
  | push _ v ih => rw [build_append, ← ih]; rfl
  | insert _ k v ih => rw [build_append, ← ih]; rfl
  | store _ he hf ih =>
    rw [store_eq, he] at hf
    cases hf
    rw [build_append, ← ih]
    rfl
  | concat _ _ ih ih' => rw [ih, ih', concat_build, build_append]
  | values vs => exact ofValues_eq vs
  | pairs ps => exact ofPairs_eq ps

end Entries

namespace Operation

/-- Prefix operators make no arrays. -/
theorem entries?_applyPrefix {op : Kind} {v r : Value} (h : applyPrefix op v = .ok r) :
    r.entries? = none := by
  unfold applyPrefix at h
  split at h
  case h_1 | h_2 =>
    obtain ⟨x, -, h⟩ := bind_eq_ok.mp h
    cases h
    rfl
  case h_3 =>
    cases h
    rfl
  case h_4 => cases h

/-- Infix operators make no arrays but the join of two. -/
theorem entries?_applyInfix {op : Kind} {u v r : Value} (h : applyInfix op u v = .ok r) :
    r.entries? = none ∨ ∃ es fs, u = .array es ∧ v = .array fs ∧
      r = .array (Entries.concat es fs) := by
  unfold applyInfix at h
  split at h
  case h_1 =>
    unfold add at h
    split at h
    · cases h
    · split at h <;> cases h <;> exact .inl rfl
  case h_2 | h_3 | h_4 | h_5 | h_6 =>
    obtain ⟨x, -, h⟩ := bind_eq_ok.mp h
    obtain ⟨y, -, h⟩ := bind_eq_ok.mp h
    obtain ⟨z, -, h⟩ := bind_eq_ok.mp h
    cases h
    exact .inl rfl
  case h_7 =>
    cases h
    unfold concat
    split
    · exact .inr ⟨_, _, rfl, rfl, rfl⟩
    · exact .inl rfl
  case h_16 =>
    unfold membership at h
    split at h <;> cases h
    exact .inl rfl
  all_goals first | (cases h; exact .inl rfl) | cases h

end Operation

namespace Function

/-- What a function of the library gives back: no array of its own making. -/
inductive Given (args : List Value) : Value → Prop
  | scalar {v} (h : v.entries? = none) : Given args v
  | argument {v} (h : v ∈ args) : Given args v
  | element {es v} (h : .array es ∈ args) (hv : v ∈ Entries.values es) : Given args v

variable {args : List Value} {v : Value}

theorem given_choose (h : choose args = .ok v) : Given args v := by
  unfold choose at h
  split at h
  · cases h
    split
    · exact .argument (by simp)
    · exact .scalar rfl
  · cases h
    split <;> exact .argument (by simp)
  · cases h

theorem given_coalesce (h : coalesce args = .ok v) : Given args v := by
  cases h
  cases hf : args.find? Value.truthy with
  | none => exact .scalar rfl
  | some w => exact .argument (List.mem_of_find?_eq_some hf)

theorem best_mem (wanted : Ordering) (first : Value) (others : List Value) :
    best wanted first others ∈ first :: others := by
  induction others generalizing first with
  | nil => exact List.mem_cons_self
  | cons w others ih =>
    rw [best, List.foldl_cons]
    split
    · exact List.mem_cons_of_mem _ (ih w)
    · have hm := ih first
      simp only [List.mem_cons] at hm ⊢
      tauto

theorem given_extreme {name : String} {wanted : Ordering} (h : extreme name wanted args = .ok v) :
    Given args v := by
  have hmem : v ∈ candidates args := by
    unfold extreme at h
    split at h
    · cases h
    · rename_i w ws hc
      cases h
      rw [hc]
      exact best_mem wanted w ws
  unfold candidates at hmem
  split at hmem
  · exact .element List.mem_cons_self hmem
  · exact .argument hmem

theorem given_numeric {name : String} {f : Float → Float}
    (h : (numeric name f).apply args = .ok v) : Given args v := by
  unfold numeric instant at h
  dsimp only at h
  split at h
  · obtain ⟨x, -, h⟩ := bind_eq_ok.mp h
    cases h
    exact .scalar rfl
  · cases h

theorem given_power (h : power args = .ok v) : Given args v := by
  unfold power at h
  split at h
  · obtain ⟨x, -, h⟩ := bind_eq_ok.mp h
    obtain ⟨y, -, h⟩ := bind_eq_ok.mp h
    cases h
    exact .scalar rfl
  · cases h

theorem InLibrary.given {f : Function} (hf : f.InLibrary) (h : f.apply args = .ok v) :
    Given args v := by
  obtain ⟨name, hf⟩ := hf
  simp only [standard, builtins, List.mem_append, List.mem_cons, List.not_mem_nil, or_false,
    Prod.mk.injEq] at hf
  rcases hf with (⟨-, rfl⟩ | ⟨-, rfl⟩ | ⟨-, rfl⟩ | ⟨-, rfl⟩) | hf
  · exact given_choose h
  · exact given_coalesce h
  · exact given_extreme h
  · exact given_extreme h
  · rcases hf with hf | hf | hf | hf | hf | hf | hf | hf | hf | hf | hf | hf | hf | hf
    case inr.inr.inr.inr.inr.inr.inr.inr.inr.inr.inr.inr.inr =>
      rw [hf.2] at h
      exact given_power h
    all_goals
      rw [hf.2] at h
      first | exact given_numeric h | exact given_extreme h

theorem Given.keysDistinct (h : Given args v) (ha : ∀ a ∈ args, a.KeysDistinct) :
    v.KeysDistinct := by
  cases h with
  | scalar h => exact Value.keysDistinct_of_scalar h
  | argument h => exact ha v h
  | element h hv => exact (ha _ h).value v hv

end Function

namespace Bindings

variable {κ α : Type} [DecidableEq κ] {b : Bindings κ α} {k : κ} {a : α}

theorem mem_of_get? (h : b.get? k = some a) : (k, a) ∈ b := by
  obtain ⟨⟨j, c⟩, hp, rfl⟩ := Option.map_eq_some_iff.mp h
  have hj : j = k := by simpa using List.find?_some hp
  exact hj ▸ List.mem_of_find?_eq_some hp

theorem mem_insert {p : κ × α} (h : p ∈ b.insert k a) : p = (k, a) ∨ p ∈ b := by
  rcases List.mem_cons.mp h with h | h
  · exact .inl h
  · exact .inr (List.mem_filter.mp h).1

end Bindings

namespace Environment

/-- The host provides no values with equal keys in an array, given none. -/
structure KeysDistinct (env : Environment) : Prop where
  constants : ∀ name v, env.constants.get? name = some v → v.KeysDistinct
  functions : ∀ name f, env.functions.get? name = some f → ∀ args v,
    (∀ a ∈ args, a.KeysDistinct) → f.apply args = .ok v → v.KeysDistinct
  operators : ∀ op h, env.operators.get? op = some h → ∀ u v r,
    u.KeysDistinct → v.KeysDistinct → h u v = .ok r → r.KeysDistinct

variable {env : Environment}

theorem keysDistinct_of_inLibrary (hc : env.constants = []) (ho : env.operators = [])
    (hf : ∀ name f, env.functions.get? name = some f → f.InLibrary) : env.KeysDistinct := by
  refine ⟨?_, fun name f h args v ha hv => ((hf name f h).given hv).keysDistinct ha, ?_⟩
  · intro name v h
    rw [hc] at h
    cases h
  · intro op handler h
    rw [ho] at h
    cases h

theorem mem_functions_of_define {ps : List (String × Function)} {p : String × Function}
    (h : p ∈ (ps.foldl (fun env p => env.defineFunction p.1 p.2) env).functions) :
    p ∈ ps ∨ p ∈ env.functions := by
  induction ps generalizing env with
  | nil => exact .inr h
  | cons q ps ih =>
    rcases ih h with h | h
    · exact .inl (List.mem_cons_of_mem q h)
    · rcases Bindings.mem_insert h with rfl | h
      · exact .inl List.mem_cons_self
      · exact .inr h

theorem keysDistinct_standard : standard.KeysDistinct := by
  refine keysDistinct_of_inLibrary rfl rfl fun name f hf => ⟨name, ?_⟩
  rcases mem_functions_of_define (Bindings.mem_of_get? hf) with h | h
  · exact List.mem_append_left _ h
  · cases h

theorem KeysDistinct.handsOn (h : env.KeysDistinct) : env.HandsOn Value.KeysDistinct where
  null := Value.keysDistinct_of_scalar rfl
  name hv := by
    unfold resolve at hv
    split at hv
    · rename_i w hw
      cases hv
      exact h.constants _ _ hw
    · split at hv <;> cases hv
      exact Value.keysDistinct_of_scalar rfl
  call ha hv := by
    unfold call at hv
    split at hv
    · rename_i f hf
      exact h.functions _ f hf _ _ ha hv
    · cases hv
  unary hv hr := by
    unfold prefixRule at hr
    split at hr
    · rename_i handler hh
      exact h.operators _ handler hh _ _ _ hv (Value.keysDistinct_of_scalar rfl) hr
    · exact Value.keysDistinct_of_scalar (Operation.entries?_applyPrefix hr)
  binary hu hv hr := by
    unfold infixRule at hr
    split at hr
    · rename_i handler hh
      exact h.operators _ handler hh _ _ _ hu hv hr
    · rcases Operation.entries?_applyInfix hr with hr | ⟨es, fs, rfl, rfl, rfl⟩
      · exact Value.keysDistinct_of_scalar hr
      · refine hu.concat fun e he => hv.value _ (List.mem_map_of_mem he)
  noEntries := Value.keysDistinct_nil
  entry hes _ hv hs := by
    rw [Entries.store_eq] at hs
    obtain ⟨e, he, rfl⟩ := map_eq_ok.mp hs
    refine hes.add ?_
    unfold Entry.forValue at he
    split at he
    · cases he
      exact hv
    · obtain ⟨text, -, rfl⟩ := map_eq_ok.mp he
      exact hv

end Environment

theorem ofJsonItems_eq (js : List Json) : ofJsonItems js = Entries.ofValues (js.map .ofJson) := by
  induction js with
  | nil => rfl
  | cons j js ih => rw [ofJsonItems, ih]; rfl

theorem ofJsonMembers_eq (ms : List (String × Json)) :
    ofJsonMembers ms = ms.map fun m => (m.1, .ofJson m.2) := by
  induction ms with
  | nil => rfl
  | cons m ms ih => rw [ofJsonMembers, ih]; rfl

/-- A document becomes a value with different keys, whatever its own names. -/
theorem keysDistinct_ofJson (j : Json) : (Value.ofJson j).KeysDistinct := by
  induction j using Json.byMembers with
  | null | bool | number | string => exact Value.keysDistinct_of_scalar rfl
  | array items ih =>
    rw [Value.ofJson, ofJsonItems_eq, Entries.ofValues_eq]
    refine Value.keysDistinct_build fun e he => ?_
    simp only [List.map_map, List.mem_map, Function.comp_apply] at he
    obtain ⟨j, hj, rfl⟩ := he
    exact ih j hj
  | object members ih =>
    rw [Value.ofJson, ofJsonMembers_eq, Entries.ofPairs_eq]
    refine Value.keysDistinct_build fun e he => ?_
    simp only [List.map_map, List.mem_map, Function.comp_apply] at he
    obtain ⟨m, hm, rfl⟩ := he
    exact ih m hm

/-- Keys are different in every array. Of an array that operations have made this is so as far as
their values allow; a key finds there what was stored under it last, and nothing if nothing was.
What is stored under a key that is there takes the place of the value where the key stands first,
and changes nothing else. A document becomes a value with different keys, and so do tokens in an
environment that provides no others: on all stacks on the way, and as a result. -/
theorem keys_distinct :
    (∀ es hs, Entries.Made es hs →
      ((∀ e ∈ hs, e.value.KeysDistinct) → (Value.array es).KeysDistinct) ∧
      ∀ k, es.get? k = Entries.latest hs k ∧ (es.get? k = none ↔ k ∉ Entries.keys hs)) ∧
    (∀ (es : Entries) k v, k ∈ es.keys →
      ∃ i, (∃ u, es[i]? = some (.keyed k u)) ∧
        (∀ j < i, ∀ e, es[j]? = some e → e.key? ≠ some k) ∧
        es.insert k v = es.set i (.keyed k v) ∧
        ∀ key : Value, key.key = .ok k → es.store (some key) v = .ok (es.set i (.keyed k v))) ∧
    (∀ j, (Value.ofJson j).KeysDistinct) ∧
    ∀ env ts, Environment.KeysDistinct env → (∀ t ∈ ts, t.value.KeysDistinct) →
      (∀ as bs r, ts = as ++ bs → Run.start.steps env as = .ok r →
        r.yard.All Value.KeysDistinct) ∧
      ∀ v, evaluateTokens env ts = .ok v → v.KeysDistinct := by
  refine ⟨?_, ?_, keysDistinct_ofJson, ?_⟩
  · intro es hs hmade
    obtain rfl := hmade.eq_build
    refine ⟨Value.keysDistinct_build, fun k => ?_⟩
    rw [Entries.get?_build]
    exact ⟨rfl, Entries.latest_eq_none_iff⟩
  · intro es k v hk
    obtain ⟨i, hi, hfirst, hset⟩ := Entries.insert_eq_set hk v
    refine ⟨i, hi, hfirst, hset, fun key hkey => ?_⟩
    rw [Entries.store, hkey, ← hset]
    rfl
  · intro env ts henv hts
    refine ⟨?_, fun v hv => henv.handsOn.evaluateTokens hts hv⟩
    rintro as bs r rfl hr
    exact henv.handsOn.run (fun t ht => hts t (List.mem_append_left _ ht)) hr

/-- The key `k` twice, with null and with a truth value. -/
def repeatedKey : List Token :=
  [.bare .arrayOpen default, ⟨.literal, .value (.text "k"), default⟩, .bare .pairArrow default,
    .bare .literal default, .bare .comma default, ⟨.literal, .value (.text "k"), default⟩,
    .bare .pairArrow default, ⟨.literal, .value (.bool true), default⟩, .bare .arrayClose default]

theorem keys_distinct_repeatedKey :
    Entries.Made [.keyed "k" (.bool true)] [.keyed "k" .null, .keyed "k" (.bool true)] ∧
      Entries.get? [.keyed "k" (.bool true)] "k" = some (.bool true) ∧
      "k" ∈ Entries.keys [.positional .null, .keyed "k" .null] ∧
      (∃ i, (∃ u, [Entry.positional .null, .keyed "k" .null][i]? = some (.keyed "k" u)) ∧
        Entries.insert [.positional .null, .keyed "k" .null] "k" (.bool true) =
          [Entry.positional .null, .keyed "k" .null].set i (.keyed "k" (.bool true))) ∧
      Environment.standard.KeysDistinct ∧ (∀ t ∈ repeatedKey, t.value.KeysDistinct) ∧
      evaluateTokens .standard repeatedKey = .ok (.array [.keyed "k" (.bool true)]) ∧
      Value.KeysDistinct (.array [.keyed "k" (.bool true)]) := by
  have hmade : Entries.Made [.keyed "k" (.bool true)] [.keyed "k" .null, .keyed "k" (.bool true)] :=
    (Entries.Made.empty.insert "k" .null).insert "k" (.bool true)
  have hmem : "k" ∈ Entries.keys [.positional .null, .keyed "k" .null] := by simp
  have htokens : ∀ t ∈ repeatedKey, t.value.KeysDistinct := by
    intro t ht
    simp only [repeatedKey, List.mem_cons, List.not_mem_nil, or_false] at ht
    rcases ht with rfl | rfl | rfl | rfl | rfl | rfl | rfl | rfl | rfl
    all_goals exact Value.keysDistinct_of_scalar rfl
  have hvalue : evaluateTokens .standard repeatedKey =
      .ok (.array [.keyed "k" (.bool true)]) := by rfl
  have hmain := keys_distinct
  obtain ⟨i, hi, -, hset, -⟩ :=
    hmain.2.1 [.positional .null, .keyed "k" .null] "k" (.bool true) hmem
  exact ⟨hmade, ((hmain.1 _ _ hmade).2 "k").1, hmem, ⟨i, hi, hset⟩,
    Environment.keysDistinct_standard, htokens, hvalue,
    (hmain.2.2.2 .standard repeatedKey Environment.keysDistinct_standard htokens).2 _ hvalue⟩

end Formula
