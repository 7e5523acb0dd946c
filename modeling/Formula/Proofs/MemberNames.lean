import Formula.Json.Conversion
import Mathlib.Data.List.Induction
import Mathlib.Data.List.Nodup
import Mathlib.Data.List.Perm.Subperm
import Mathlib.Tactic.Common

/-! The names that entries have as members of an object. Entries with a key keep it, and the others
are numbered around the keys, so that different keys give different names. -/
namespace Formula

namespace Entries

variable {taken : List String} {n fuel : Nat} {es : Entries} {k : String}

theorem toString_injective {m n : Nat} (h : toString m = toString n) : m = n := by
  have hdigits := congrArg String.toList h
  simp only [Nat.toString_eq_repr, Nat.toList_repr] at hdigits
  rw [← @Nat.ofDigitChars_ten_toDigits m, hdigits, Nat.ofDigitChars_ten_toDigits]

/-- Of more numbers than texts are taken, one is free. -/
theorem exists_free (taken : List String) (n : Nat) :
    ∃ m, n ≤ m ∧ m ≤ n + taken.length ∧ toString m ∉ taken := by
  by_contra h
  push Not at h
  have hnodup : ((List.range' n (taken.length + 1)).map fun m => toString m).Nodup :=
    List.Nodup.map (fun _ _ => toString_injective) List.nodup_range'
  have hsub : ((List.range' n (taken.length + 1)).map fun m => toString m) ⊆ taken := by
    intro k hk
    obtain ⟨m, hm, rfl⟩ := List.mem_map.mp hk
    rw [List.mem_range'_1] at hm
    exact h m hm.1 (by omega)
  have hlength := (List.subperm_of_subset hnodup hsub).length_le
  rw [List.length_map, List.length_range'] at hlength
  omega

/-- The next free number is the least one whose text is not taken. -/
theorem nextFree_spec (h : ∃ m, n ≤ m ∧ m ≤ n + fuel ∧ toString m ∉ taken) :
    n ≤ nextFree taken fuel n ∧ toString (nextFree taken fuel n) ∉ taken ∧
      ∀ m, n ≤ m → m < nextFree taken fuel n → toString m ∈ taken := by
  obtain ⟨m, hle, hge, hm⟩ := h
  induction fuel generalizing n with
  | zero =>
    obtain rfl : n = m := Nat.le_antisymm hle hge
    exact ⟨Nat.le_refl n, hm, fun i h h' => absurd h' (Nat.not_lt.mpr h)⟩
  | succ fuel ih =>
    rw [nextFree]
    split
    · rename_i htaken
      have hne : n ≠ m := by
        rintro rfl
        exact hm htaken
      obtain ⟨hr, hfree, hleast⟩ := @ih (n + 1) (by omega) (by omega)
      refine ⟨Nat.le_of_succ_le hr, hfree, fun i hi hlt => ?_⟩
      rcases Nat.eq_or_lt_of_le hi with rfl | hi
      · exact htaken
      · exact hleast i hi hlt
    · rename_i hfree
      exact ⟨Nat.le_refl n, hfree, fun i h h' => absurd h' (Nat.not_lt.mpr h)⟩

@[simp] theorem length_memberNames (taken : List String) (n : Nat) (es : Entries) :
    (memberNames taken n es).length = es.length := by
  induction es generalizing n with
  | nil => rfl
  | cons e es ih => cases e <;> simp [memberNames, ih]

@[simp] theorem length_names (es : Entries) : es.names.length = es.length :=
  length_memberNames es.keys 0 es

/-- A name is a key or a number that is no key. -/
theorem mem_memberNames (h : k ∈ memberNames taken n es) :
    k ∈ es.keys ∨ ∃ m, n ≤ m ∧ k = toString m ∧ k ∉ taken := by
  induction es generalizing n with
  | nil => cases h
  | cons e es ih =>
    cases e with
    | keyed l v =>
      rcases List.mem_cons.mp h with rfl | h
      · exact .inl (by simp)
      · exact (ih h).imp_left fun h => by simp [h]
    | positional v =>
      obtain ⟨hle, hfree, -⟩ := nextFree_spec (exists_free taken n)
      rcases List.mem_cons.mp h with rfl | h
      · exact .inr ⟨_, hle, rfl, hfree⟩
      · rcases ih h with h | ⟨m, hm, hk⟩
        · exact .inl (by simpa using h)
        · exact .inr ⟨m, by omega, hk⟩

theorem nodup_memberNames (h : es.keys.Nodup) (htaken : ∀ k ∈ es.keys, k ∈ taken) :
    (memberNames taken n es).Nodup := by
  induction es generalizing n with
  | nil => exact List.nodup_nil
  | cons e es ih =>
    cases e with
    | keyed l v =>
      simp only [keys_cons, Entry.key?_keyed, Option.toList_some, List.cons_append,
        List.nil_append, List.nodup_cons, List.mem_cons, forall_eq_or_imp] at h htaken
      refine List.nodup_cons.mpr ⟨fun hl => ?_, ih h.2 htaken.2⟩
      rcases mem_memberNames hl with hl | ⟨_, -, -, hl⟩
      · exact h.1 hl
      · exact hl htaken.1
    | positional v =>
      simp only [keys_cons, Entry.key?_positional, Option.toList_none, List.nil_append]
        at h htaken
      obtain ⟨-, hfree, -⟩ := nextFree_spec (exists_free taken n)
      refine List.nodup_cons.mpr ⟨fun hl => ?_, ih h htaken⟩
      rcases mem_memberNames hl with hl | ⟨m, hle, hm, -⟩
      · exact hfree (htaken _ hl)
      · have := toString_injective hm
        omega

/-- Different keys give different names. -/
theorem nodup_names (h : es.keys.Nodup) : es.names.Nodup := nodup_memberNames h fun _ hk => hk

/-- Values under names, in the order of both. -/
def labelled (ks : List String) (vs : List Value) : Entries := ks.zipWith .keyed vs

variable {ks : List String} {vs : List Value}

theorem values_labelled (h : ks.length = vs.length) : (labelled ks vs).values = vs := by
  induction ks generalizing vs with
  | nil => simpa [labelled, values, eq_comm] using h
  | cons k ks ih =>
    cases vs with
    | nil => cases h
    | cons v vs => exact congrArg (v :: ·) (ih (Nat.succ.inj h))

theorem keys_labelled (h : ks.length = vs.length) : (labelled ks vs).keys = ks := by
  induction ks generalizing vs with
  | nil => rfl
  | cons k ks ih =>
    cases vs with
    | nil => cases h
    | cons v vs => exact congrArg (k :: ·) (ih (Nat.succ.inj h))

/-- Entries that all have a key are their values under their keys. -/
theorem labelled_keys_values (h : ∀ e ∈ es, e.key?.isSome) : labelled es.keys es.values = es := by
  induction es with
  | nil => rfl
  | cons e es ih =>
    rw [List.forall_mem_cons] at h
    cases e with
    | positional v => cases h.1
    | keyed k v => exact congrArg (Entry.keyed k v :: ·) (ih h.2)

theorem memberNames_of_keyed (h : ∀ e ∈ es, e.key?.isSome) : memberNames taken n es = es.keys := by
  induction es with
  | nil => rfl
  | cons e es ih =>
    rw [List.forall_mem_cons] at h
    cases e with
    | positional v => cases h.1
    | keyed k v => exact congrArg (k :: ·) (ih h.2)

/-- Where all entries have a key, the keys are the names. -/
theorem names_of_keyed (h : ∀ e ∈ es, e.key?.isSome) : es.names = es.keys :=
  memberNames_of_keyed h

theorem isSome_key?_labelled {e : Entry} (h : e ∈ labelled ks vs) : e.key?.isSome := by
  rw [labelled, List.mem_iff_getElem] at h
  obtain ⟨i, hi, rfl⟩ := h
  rw [List.getElem_zipWith]
  rfl

theorem names_labelled (h : ks.length = vs.length) : (labelled ks vs).names = ks := by
  rw [names_of_keyed fun _ => isSome_key?_labelled, keys_labelled h]

end Entries
end Formula
