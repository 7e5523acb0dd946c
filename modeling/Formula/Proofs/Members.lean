import Formula.Proofs.RoundTrip
import Mathlib.Data.Nat.Nth

/-! The members of an array as an object. There is one for each entry, in the order of the entries,
and the entries without a key are numbered by the numbers whose texts are no keys, in the order of
these. So no member takes the place of another, and writing a value gives the text of its
document. -/
namespace Formula

namespace Entries

/-- The text of the number is not taken. -/
def IsFree (taken : List String) (n : Nat) : Prop := toString n ∉ taken

instance (taken : List String) : DecidablePred (IsFree taken) :=
  fun n => inferInstanceAs (Decidable (toString n ∉ taken))

/-- The members that entries are written as, each with its name. -/
def members (es : Entries) : List (String × Value) := es.names.zip es.values

variable {taken : List String} {es : Entries} {n k i : Nat}

/-- Only finitely many texts are taken. -/
theorem infinite_isFree (taken : List String) : {n | IsFree taken n}.Infinite := by
  refine Set.infinite_of_not_bddAbove ?_
  rintro ⟨bound, hbound⟩
  obtain ⟨m, hle, -, hfree⟩ := exists_free taken (bound + 1)
  exact absurd (hbound hfree) (Nat.not_le.mpr hle)

/-- The search from `n` on skips the free numbers before `n`, and no others. -/
theorem nextFree_eq_nth (taken : List String) (n : Nat) :
    nextFree taken taken.length n = Nat.nth (IsFree taken) (Nat.count (IsFree taken) n) := by
  obtain ⟨hle, hfree, hleast⟩ := nextFree_spec (exists_free taken n)
  have hisLeast : IsLeast {m | IsFree taken m ∧ n ≤ m} (nextFree taken taken.length n) := by
    refine ⟨⟨hfree, hle⟩, fun m hm => ?_⟩
    by_contra hlt
    exact hm.1 (hleast m hm.2 (Nat.lt_of_not_le hlt))
  rw [Nat.nth_count_eq_sInf, hisLeast.csInf_eq]

/-- An entry has its key for a name, or the number that follows the ones before it. The induction is
on the entries that are left, `k` of the free numbers being used up. -/
theorem getElem?_memberNames (hn : Nat.count (IsFree taken) n = k) (i : Nat) :
    (memberNames taken n es)[i]? = es[i]?.map fun e =>
      e.key?.getD (toString (Nat.nth (IsFree taken) (k + (positionals (es.take i)).length))) := by
  induction es generalizing n k i with
  | nil => rfl
  | cons e es ih =>
    cases e with
    | keyed l v =>
      cases i with
      | zero => rfl
      | succ i => exact ih hn i
    | positional v =>
      have hnext := nextFree_eq_nth taken n
      rw [hn] at hnext
      cases i with
      | zero => simp [memberNames, hnext, positionals]
      | succ i =>
        have hcount : Nat.count (IsFree taken) (nextFree taken taken.length n + 1) = k + 1 := by
          rw [hnext, Nat.count_nth_succ_of_infinite (infinite_isFree taken)]
        have hlength : (positionals ((Entry.positional v :: es).take (i + 1))).length =
            (positionals (es.take i)).length + 1 := by
          simp [positionals]
        rw [memberNames, List.getElem?_cons_succ, List.getElem?_cons_succ, ih hcount i, hlength,
          Nat.add_assoc, Nat.add_comm 1]

/-- The name and the value of the entry at a place. -/
theorem getElem?_members {e : Entry} (h : es[i]? = some e) :
    es.members[i]? = some
      (e.key?.getD (toString (Nat.nth (IsFree es.keys) (positionals (es.take i)).length)),
        e.value) := by
  refine List.getElem?_zip_eq_some.mpr ⟨?_, ?_⟩
  · rw [names, getElem?_memberNames (Nat.count_zero _), h, Nat.zero_add]
    rfl
  · rw [values, List.getElem?_map, h]
    rfl

@[simp] theorem length_members (es : Entries) : es.members.length = es.length := by
  simp [members, values]

theorem map_fst_members (es : Entries) : es.members.map Prod.fst = es.names :=
  List.map_fst_zip (by simp [values])

/-- Members with their values changed. -/
theorem zip_names_map {α : Type} (es : Entries) (f : Value → α) :
    es.names.zip (es.values.map f) = es.members.map fun m => (m.1, f m.2) :=
  List.zip_map_right

theorem isPlainList_eq_false_iff : es.isPlainList = false ↔ es.keys ≠ [] := by
  rw [← Bool.not_eq_true, isPlainList_iff, Ne, keys, List.filterMap_eq_nil_iff]

end Entries

theorem jsonTexts_eq (es : Entries) : jsonTexts es = es.values.map Value.jsonText := by
  induction es with
  | nil => rfl
  | cons e es ih => cases e <;> (rw [jsonTexts, ih]; rfl)

namespace Json

/-- The text of an object from those of its members. -/
def objectText (members : List (String × String)) : String :=
  "\x7b" ++ ",".intercalate (members.map fun m => quoted m.1 ++ ":" ++ m.2) ++ "\x7d"

theorem compactItems_eq (js : List Json) : compactItems js = js.map compact := by
  induction js with
  | nil => rfl
  | cons j js ih => rw [compactItems, ih]; rfl

theorem compactMembers_eq (ms : List (String × Json)) :
    compactMembers ms = ms.map fun m => quoted m.1 ++ ":" ++ m.2.compact := by
  induction ms with
  | nil => rfl
  | cons m ms ih => rw [compactMembers, ih]; rfl

theorem compact_object (ms : List (String × Json)) :
    compact (.object ms) = objectText (ms.map fun m => (m.1, m.2.compact)) := by
  rw [compact, compactMembers_eq, objectText, List.map_map]
  rfl

/-- What is no finite number is null, in the text as well as in the document. -/
theorem compact_ofDouble (x : Float) : compact (ofDouble x) = Layout.json.write x := by
  rw [ofDouble]
  split
  · rfl
  · rename_i hx
    rw [Layout.write]
    split
    · rfl
    · rename_i negative _
      cases negative <;> rfl
    · rename_i hfinite
      exact absurd hfinite (hx _ _ _)

end Json

namespace Value

variable {es : Entries}

theorem toJson_members (hkeyed : es.keys ≠ []) (hkeys : es.keys.Nodup) :
    toJson (.array es) = .object (es.members.map fun m => (m.1, m.2.toJson)) := by
  rw [toJson_of_nodup_keys (Entries.isPlainList_eq_false_iff.mpr hkeyed) hkeys,
    Entries.zip_names_map]

theorem jsonText_members (hkeyed : es.keys ≠ []) :
    jsonText (.array es) = Json.objectText (es.members.map fun m => (m.1, m.2.jsonText)) := by
  rw [jsonText, Entries.isPlainList_eq_false_iff.mpr hkeyed, if_neg (by decide), jsonTexts_eq,
    Entries.zip_names_map, Json.objectText]

/-- Writing a value gives the text of its document. -/
theorem compact_toJson {v : Value} (h : v.KeysDistinct) : v.toJson.compact = v.jsonText := by
  induction v using Value.byEntries with
  | null => rfl
  | bool b => rfl
  | text s => rfl
  | number x => exact Json.compact_ofDouble x
  | array es ih =>
    obtain ⟨hkeys, hvalues⟩ := keysDistinct_array_iff.mp h
    cases hplain : es.isPlainList with
    | true =>
      have hitems : (es.values.map toJson).map Json.compact = es.values.map jsonText := by
        rw [List.map_map]
        exact List.map_congr_left fun v hv => ih v hv (hvalues v hv)
      rw [toJson_of_isPlainList hplain, Json.compact, Json.compactItems_eq, hitems, jsonText,
        if_pos hplain, jsonTexts_eq]
    | false =>
      have hkeyed := Entries.isPlainList_eq_false_iff.mp hplain
      rw [toJson_members hkeyed hkeys, Json.compact_object, jsonText_members hkeyed, List.map_map]
      refine congrArg Json.objectText (List.map_congr_left fun m hm => ?_)
      have hvalue : m.2 ∈ es.values := (List.of_mem_zip hm).2
      exact congrArg (m.1, ·) (ih m.2 hvalue (hvalues m.2 hvalue))

end Value

/-- An array with keys has a member for each entry, in their order and under different names, both
in its document and in its text. An entry with a key keeps it, and those without one get the numbers
whose texts are no keys of the array, one after the other; the next such number is never further off
than there are keys. So what a value is written as is the text of its document. -/
theorem members_complete :
    (∀ es : Entries, es.keys ≠ [] → es.keys.Nodup →
      (es.members.length = es.length ∧ (es.members.map Prod.fst).Nodup ∧
        (∀ (i : Nat) (k : String) (v : Value), es[i]? = some (.keyed k v) →
          es.members[i]? = some (k, v)) ∧
        (∀ n, ∃ m, n ≤ m ∧ m ≤ n + es.keys.length ∧ Entries.IsFree es.keys m) ∧
        ∀ (i : Nat) (v : Value), es[i]? = some (.positional v) →
          es.members[i]? = some
            (toString (Nat.nth (Entries.IsFree es.keys) (Entries.positionals (es.take i)).length),
              v)) ∧
      Value.toJson (.array es) = .object (es.members.map fun m => (m.1, m.2.toJson)) ∧
      Value.jsonText (.array es) =
        Json.objectText (es.members.map fun m => (m.1, m.2.jsonText))) ∧
    ∀ v : Value, v.KeysDistinct → v.toJson.compact = v.jsonText := by
  refine ⟨fun es hkeyed hkeys => ⟨⟨es.length_members, ?_, ?_, ?_, ?_⟩, ?_, ?_⟩, ?_⟩
  · rw [Entries.map_fst_members]
    exact Entries.nodup_names hkeys
  · intro i k v h
    exact Entries.getElem?_members h
  · exact Entries.exists_free es.keys
  · intro i v h
    exact Entries.getElem?_members h
  · exact Value.toJson_members hkeyed hkeys
  · exact Value.jsonText_members hkeyed
  · intro v h
    exact Value.compact_toJson h

/-- Keys that read as numbers, before and behind the entries without a key. -/
def clashing : Entries :=
  [.keyed "1" (.text "b"), .positional (.text "a"), .keyed "0" (.text "c"), .positional (.text "d")]

theorem members_complete_clashing :
    clashing.keys ≠ [] ∧ clashing.keys.Nodup ∧
    (clashing[2]? = some (.keyed "0" (.text "c")) ∧
      clashing.members[2]? = some ("0", .text "c")) ∧
    (clashing[3]? = some (.positional (.text "d")) ∧
      clashing.members[3]? =
        some (toString (Nat.nth (Entries.IsFree clashing.keys) 1), .text "d")) ∧
    Value.toJson (.array clashing) =
      .object [("1", .string "b"), ("2", .string "a"), ("0", .string "c"), ("3", .string "d")] ∧
    Value.KeysDistinct (.array clashing) ∧
    (Value.toJson (.array clashing)).compact = Value.jsonText (.array clashing) := by
  obtain ⟨harrays, htexts⟩ := members_complete
  have hkeyed : clashing.keys ≠ [] := by decide
  have hkeys : clashing.keys.Nodup := by decide
  have hdistinct : Value.KeysDistinct (.array clashing) := by
    refine Value.keysDistinct_array_iff.mpr ⟨hkeys, fun v hv => ?_⟩
    simp only [Entries.values, clashing, List.map_cons, List.map_nil, List.mem_cons,
      List.not_mem_nil, or_false, Entry.value_positional, Entry.value_keyed] at hv
    rcases hv with rfl | rfl | rfl | rfl <;> exact Value.keysDistinct_of_scalar rfl
  obtain ⟨⟨-, -, hkeyedAt, -, hpositionalAt⟩, hdocument, -⟩ := harrays clashing hkeyed hkeys
  exact ⟨hkeyed, hkeys, ⟨rfl, hkeyedAt 2 _ _ rfl⟩, ⟨rfl, hpositionalAt 3 _ rfl⟩,
    hdocument.trans rfl, hdistinct, htexts _ hdistinct⟩

end Formula
