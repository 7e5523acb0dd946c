import Formula.Operation
import Mathlib.Data.List.Induction
import Mathlib.Data.List.Nodup
import Mathlib.Tactic.Common

/-! Entries stored one after the other. A key stays where it was stored first and keeps what was
stored last, and joining two arrays stores the entries of the second behind those of the first. -/
namespace Formula

/-- The entry that a value is stored as, under its key if it has one. -/
def Entry.forValue (key : Option Value) (v : Value) : Except Fault Entry :=
  match key with
  | none => .ok (.positional v)
  | some k => k.key.map (.keyed · v)

namespace Entries

variable {es fs gs : Entries} {k l : String} {v w : Value} {e : Entry}

/-- The array that entries make when they are stored one by one. -/
def build (hs : List Entry) : Entries := concat [] hs

/-- What was stored last under a key. -/
def latest (hs : List Entry) (k : String) : Option Value :=
  (hs.reverse.find? fun e => e.key? == some k).map Entry.value

/-- The values without a key. -/
def positionals (es : Entries) : List Value :=
  es.filterMap fun
    | .positional v => some v
    | .keyed _ _ => none

/-- A new key goes to the end. -/
theorem insert_of_notMem (h : k ∉ es.keys) (v : Value) : es.insert k v = es ++ [.keyed k v] := by
  induction es with
  | nil => rfl
  | cons e es ih =>
    rw [keys_cons, List.mem_append, not_or] at h
    have he : e.key? ≠ some k := fun he => h.1 (by simp [he])
    rw [insert, if_neg he, ih h.2]
    rfl

/-- A key that is there stands somewhere for the first time. -/
theorem split_of_mem_keys (h : k ∈ es.keys) :
    ∃ as u bs, es = as ++ .keyed k u :: bs ∧ k ∉ keys as := by
  induction es with
  | nil => cases h
  | cons e es ih =>
    by_cases he : e.key? = some k
    · cases e with
      | positional u => cases he
      | keyed l u =>
        cases he
        exact ⟨[], u, es, rfl, List.not_mem_nil⟩
    · rw [keys_cons, List.mem_append] at h
      have hrest : k ∈ keys es := h.resolve_left (by simpa using he)
      obtain ⟨as, u, bs, rfl, has⟩ := ih hrest
      refine ⟨e :: as, u, bs, rfl, ?_⟩
      rw [keys_cons, List.mem_append, not_or]
      exact ⟨by simpa using he, has⟩

/-- A key that is there gets its new value where it stands first. -/
theorem insert_split {as bs : Entries} (h : k ∉ as.keys) (u v : Value) :
    insert (as ++ .keyed k u :: bs) k v = as ++ .keyed k v :: bs := by
  induction as with
  | nil => simp [insert]
  | cons e as ih =>
    rw [keys_cons, List.mem_append, not_or] at h
    have he : e.key? ≠ some k := fun he => h.1 (by simp [he])
    rw [List.cons_append, insert, if_neg he, ih h.2]
    rfl

theorem mem_keys_insert (es : Entries) (k : String) (v : Value) : k ∈ (es.insert k v).keys := by
  rw [keys_insert]
  split
  · assumption
  · simp

theorem mem_keys_insert_of_mem (h : l ∈ es.keys) (k : String) (v : Value) :
    l ∈ (es.insert k v).keys := by
  rw [keys_insert]
  split
  · exact h
  · exact List.mem_append_left _ h

theorem nodup_keys_insert (h : es.keys.Nodup) (k : String) (v : Value) :
    (es.insert k v).keys.Nodup := by
  rw [keys_insert]
  split
  · exact h
  · rename_i hk
    exact List.nodup_append.mpr ⟨h, List.nodup_singleton k, by
      rintro a ha b hb rfl
      exact hk (by simpa using List.mem_singleton.mp hb ▸ ha)⟩

theorem nodup_keys_add (h : es.keys.Nodup) (e : Entry) : (es.add e).keys.Nodup := by
  cases e with
  | positional v => rwa [add, keys_push]
  | keyed k v => exact nodup_keys_insert h k v

theorem nodup_keys_concat (h : es.keys.Nodup) (hs : List Entry) : (es.concat hs).keys.Nodup := by
  induction hs generalizing es with
  | nil => exact h
  | cons e hs ih => exact ih (nodup_keys_add h e)

/-- What is stored last under a key wins. -/
theorem insert_insert (es : Entries) (k : String) (v w : Value) :
    (es.insert k v).insert k w = es.insert k w := by
  by_cases h : k ∈ es.keys
  · obtain ⟨as, u, bs, rfl, has⟩ := split_of_mem_keys h
    rw [insert_split has, insert_split has, insert_split has]
  · rw [insert_of_notMem h, insert_of_notMem h, insert_split h]

/-- A key that is there already does not mind what is stored under another in between. -/
theorem insert_comm (h : k ∈ es.keys) (hkl : k ≠ l) (v w : Value) :
    (es.insert k v).insert l w = (es.insert l w).insert k v := by
  induction es with
  | nil => cases h
  | cons e es ih =>
    by_cases hk : e.key? = some k
    · simp [insert, hk, hkl]
    · rw [keys_cons, List.mem_append] at h
      have hrest : k ∈ keys es := h.resolve_left (by simpa using hk)
      by_cases hl : e.key? = some l
      · simp [insert, hl, Ne.symm hkl]
      · simp [insert, hk, hl, ih hrest]

theorem insert_push (h : k ∈ es.keys) (v w : Value) :
    (es.insert k v).push w = (es.push w).insert k v := by
  obtain ⟨as, u, bs, rfl, has⟩ := split_of_mem_keys h
  rw [insert_split has, push, push, List.append_assoc, List.append_assoc, List.cons_append,
    List.cons_append, insert_split has]

/-- Entries that do not store under a key leave its turn to be changed for later. -/
theorem insert_concat (h : k ∈ es.keys) (hk : k ∉ fs.keys) (v : Value) :
    (es.insert k v).concat fs = (es.concat fs).insert k v := by
  induction fs generalizing es with
  | nil => rfl
  | cons e fs ih =>
    rw [keys_cons, List.mem_append, not_or] at hk
    cases e with
    | positional w =>
      have hpush : k ∈ (es.push w).keys := by rwa [keys_push]
      have hstep := ih hpush hk.2
      rw [← insert_push h] at hstep
      exact hstep
    | keyed l w =>
      have hkl : k ≠ l := fun hkl => hk.1 (by simp [hkl])
      have hstep := ih (mem_keys_insert_of_mem h l w) hk.2
      rw [← insert_comm h hkl] at hstep
      exact hstep

/-- One more entry at the end of an array is one more entry at the end of a join with it. -/
theorem concat_add (es : Entries) (h : fs.keys.Nodup) (e : Entry) :
    es.concat (fs.add e) = (es.concat fs).add e := by
  cases e with
  | positional v => exact concat_append es fs [.positional v]
  | keyed k v =>
    by_cases hk : k ∈ fs.keys
    · obtain ⟨as, u, bs, rfl, has⟩ := split_of_mem_keys hk
      rw [keys_append, keys_cons] at h
      have hbs : k ∉ keys bs := (List.nodup_cons.mp (List.nodup_append.mp h).2.1).1
      change es.concat (insert (as ++ .keyed k u :: bs) k v) =
        (es.concat (as ++ .keyed k u :: bs)).insert k v
      rw [insert_split has, concat_append, concat_append]
      change ((es.concat as).insert k v).concat bs =
        (((es.concat as).insert k u).concat bs).insert k v
      rw [← insert_concat (mem_keys_insert _ k u) hbs, insert_insert]
    · change es.concat (fs.insert k v) = (es.concat fs).insert k v
      rw [insert_of_notMem hk, concat_append]
      rfl

theorem build_append (hs gs : List Entry) : build (hs ++ gs) = (build hs).concat gs :=
  concat_append [] hs gs

theorem nodup_keys_build (hs : List Entry) : (build hs).keys.Nodup :=
  @nodup_keys_concat [] List.nodup_nil hs

/-- Storing what was collected from entries is storing the entries. -/
theorem concat_build (es : Entries) (hs : List Entry) : es.concat (build hs) = es.concat hs := by
  induction hs using List.reverseRecOn with
  | nil => rfl
  | append_singleton hs e ih =>
    have hlast : build (hs ++ [e]) = (build hs).add e := build_append hs [e]
    rw [hlast, concat_add es (nodup_keys_build hs), ih, concat_append]
    rfl

/-- An array with different keys is what its own entries make. -/
theorem build_of_nodup (h : es.keys.Nodup) : build es = es := by
  induction es using List.reverseRecOn with
  | nil => rfl
  | append_singleton es e ih =>
    rw [keys_append] at h
    have hlast : build (es ++ [e]) = (build es).add e := build_append es [e]
    rw [hlast, ih (List.nodup_append.mp h).1]
    cases e with
    | positional v => rfl
    | keyed k v =>
      refine insert_of_notMem (fun hk => ?_) v
      exact (List.nodup_append.mp h).2.2 k hk k (by simp) rfl

theorem nil_concat (h : es.keys.Nodup) : concat [] es = es := build_of_nodup h

/-- Joining is associative where the keys of the second and the third are different. -/
theorem concat_assoc (es : Entries) (hf : fs.keys.Nodup) (gs : Entries) :
    (es.concat fs).concat gs = es.concat (fs.concat gs) := by
  have hbuild : build (fs ++ gs) = fs.concat gs := by rw [build_append, build_of_nodup hf]
  rw [← concat_append, ← hbuild, concat_build]

theorem get?_cons (e : Entry) (es : Entries) (k : String) :
    get? (e :: es) k = if e.key? = some k then some e.value else get? es k := by
  by_cases h : e.key? = some k <;> simp [get?, h]

theorem get?_insert_self (es : Entries) (k : String) (v : Value) :
    (es.insert k v).get? k = some v := by
  induction es with
  | nil => simp [insert, get?]
  | cons e es ih =>
    rw [insert]
    split
    · simp [get?_cons]
    · rename_i he
      rw [get?_cons, if_neg he, ih]

theorem get?_insert_of_ne (hkl : k ≠ l) (es : Entries) (v : Value) :
    (es.insert k v).get? l = es.get? l := by
  induction es with
  | nil => simp [insert, get?, hkl]
  | cons e es ih =>
    rw [insert]
    split
    · rename_i he
      rw [get?_cons, get?_cons, he, if_neg (by simpa using hkl), if_neg (by simpa using hkl)]
    · rw [get?_cons, get?_cons, ih]

theorem get?_add (es : Entries) (e : Entry) (k : String) :
    (es.add e).get? k = if e.key? = some k then some e.value else es.get? k := by
  cases e with
  | positional v => simp [add, push, get?]
  | keyed l v =>
    by_cases h : l = k
    · subst h
      simpa [add] using get?_insert_self es l v
    · simpa [add, h] using get?_insert_of_ne h es v

theorem latest_concat (hs : List Entry) (e : Entry) (k : String) :
    latest (hs ++ [e]) k = if e.key? = some k then some e.value else latest hs k := by
  by_cases h : e.key? = some k <;> simp [latest, h]

theorem latest_eq_none_iff {hs : List Entry} : latest hs k = none ↔ k ∉ keys hs := by
  simp only [latest, keys, Option.map_eq_none_iff, List.find?_eq_none, List.mem_reverse,
    List.mem_filterMap, beq_iff_eq, not_exists, not_and]

/-- Under a key stands what was stored there last, or else what was there before. -/
theorem get?_concat_latest (es : Entries) (hs : List Entry) (k : String) :
    (es.concat hs).get? k = (latest hs k).or (es.get? k) := by
  induction hs using List.reverseRecOn with
  | nil => rfl
  | append_singleton hs e ih =>
    have hlast : es.concat (hs ++ [e]) = (es.concat hs).add e := concat_append es hs [e]
    rw [hlast, get?_add, latest_concat, ih]
    split <;> rfl

theorem get?_build (hs : List Entry) (k : String) : (build hs).get? k = latest hs k := by
  rw [build, get?_concat_latest]
  exact Option.or_none

/-- Where keys are different, the last entry under a key is the only one. -/
theorem latest_of_nodup (h : es.keys.Nodup) (k : String) : latest es k = es.get? k := by
  rw [← get?_build, build_of_nodup h]

theorem positionals_append (es fs : Entries) :
    positionals (es ++ fs) = positionals es ++ positionals fs := List.filterMap_append

theorem positionals_insert (es : Entries) (k : String) (v : Value) :
    positionals (es.insert k v) = positionals es := by
  by_cases h : k ∈ es.keys
  · obtain ⟨as, u, bs, rfl, has⟩ := split_of_mem_keys h
    rw [insert_split has, positionals_append, positionals_append]
    rfl
  · rw [insert_of_notMem h, positionals_append]
    exact List.append_nil _

/-- The values without a key are all kept, in order. -/
theorem positionals_concat (es hs : Entries) :
    positionals (es.concat hs) = positionals es ++ positionals hs := by
  induction hs generalizing es with
  | nil => exact (List.append_nil _).symm
  | cons e hs ih =>
    change positionals ((es.add e).concat hs) = _
    rw [ih]
    cases e with
    | positional v =>
      rw [add, push, positionals_append, List.append_assoc]
      rfl
    | keyed k v =>
      rw [add, positionals_insert]
      rfl

/-- What a place has for a key stays as it is. -/
theorem key?_insert (es : Entries) (k : String) (v : Value) {i : Nat} (hi : i < es.length) :
    (es.insert k v)[i]?.map Entry.key? = es[i]?.map Entry.key? := by
  by_cases h : k ∈ es.keys
  · obtain ⟨as, u, bs, rfl, has⟩ := split_of_mem_keys h
    rw [insert_split has, ← List.getElem?_map, ← List.getElem?_map, List.map_append,
      List.map_append]
    rfl
  · rw [insert_of_notMem h, List.getElem?_append_left hi]

theorem length_le_insert (es : Entries) (k : String) (v : Value) :
    es.length ≤ (es.insert k v).length := by
  by_cases h : k ∈ es.keys
  · obtain ⟨as, u, bs, rfl, has⟩ := split_of_mem_keys h
    simp [insert_split has]
  · simp [insert_of_notMem h]

/-- Every entry of the first of two joined arrays keeps its place, and its key if it has one. -/
theorem key?_concat (es hs : Entries) {i : Nat} (hi : i < es.length) :
    (es.concat hs)[i]?.map Entry.key? = es[i]?.map Entry.key? := by
  induction hs generalizing es with
  | nil => rfl
  | cons e hs ih =>
    cases e with
    | positional v =>
      have hlen : i < (es.push v).length := by simp [push]; omega
      refine (ih (es.push v) hlen).trans ?_
      rw [push, List.getElem?_append_left hi]
    | keyed k v =>
      exact (ih (es.insert k v) (Nat.lt_of_lt_of_le hi (length_le_insert es k v))).trans
        (key?_insert es k v hi)

/-- Storing under a key that is there changes the value at one place, the first with that key. -/
theorem insert_eq_set (h : k ∈ es.keys) (v : Value) :
    ∃ i, (∃ u, es[i]? = some (.keyed k u)) ∧
      (∀ j < i, ∀ e, es[j]? = some e → e.key? ≠ some k) ∧
      es.insert k v = es.set i (.keyed k v) := by
  obtain ⟨as, u, bs, rfl, has⟩ := split_of_mem_keys h
  refine ⟨as.length, ⟨u, by simp⟩, ?_, ?_⟩
  · intro j hj e he hk
    rw [List.getElem?_append_left hj] at he
    exact has (List.mem_filterMap.mpr ⟨e, List.mem_of_getElem? he, hk⟩)
  · rw [insert_split has, List.set_append_right _ _ (Nat.le_refl _), Nat.sub_self]
    rfl

/-- Nothing is among the values of an array that was not there before or is not stored now. -/
theorem mem_values_add {u : Value} (h : u ∈ (es.add e).values) : u ∈ es.values ∨ u = e.value := by
  cases e with
  | positional v =>
    rw [add, push, values, List.map_append, List.mem_append] at h
    exact h.imp_right fun h => by simpa using h
  | keyed k v =>
    by_cases hk : k ∈ es.keys
    · obtain ⟨as, w, bs, rfl, has⟩ := split_of_mem_keys hk
      rw [add, insert_split has] at h
      simp only [values, List.map_append, List.map_cons, List.mem_append, List.mem_cons,
        Entry.value_keyed] at h ⊢
      tauto
    · rw [add, insert_of_notMem hk, values, List.map_append, List.mem_append] at h
      exact h.imp_right fun h => by simpa using h

/-- To store a value is to add its entry. -/
theorem store_eq (es : Entries) (key : Option Value) (v : Value) :
    es.store key v = (Entry.forValue key v).map es.add := by
  cases key with
  | none => rfl
  | some k =>
    simp only [store, Entry.forValue]
    cases k.key <;> rfl

end Entries

end Formula
