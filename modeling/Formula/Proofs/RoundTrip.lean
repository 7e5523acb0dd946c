import Formula.Proofs.Finiteness
import Formula.Proofs.MemberNames
import Formula.Proofs.Uniqueness

/-! Values and documents, turned into one another and back. What is lost on the way is said by two
functions, one for either direction. Main statement: a value comes back with names for its entries
where some have keys, and a document with doubles for its numbers. -/
namespace Formula

namespace Json

variable {ms : List (String × Json)} {k : String}

/-- A new name goes to the end. -/
theorem setMember_of_notMem (h : k ∉ ms.map Prod.fst) (j : Json) :
    setMember ms k j = ms ++ [(k, j)] := by
  induction ms with
  | nil => rfl
  | cons m ms ih =>
    obtain ⟨l, i⟩ := m
    rw [List.map_cons, List.mem_cons, not_or] at h
    rw [setMember, if_neg (Ne.symm h.1), ih h.2]
    rfl

/-- Members with different names are kept as they are. -/
theorem membersOf_of_nodup (h : (ms.map Prod.fst).Nodup) : membersOf ms = ms := by
  induction ms using List.reverseRecOn with
  | nil => rfl
  | append_singleton ms m ih =>
    rw [List.map_append, List.nodup_append] at h
    have hlast : membersOf (ms ++ [m]) = setMember (membersOf ms) m.1 m.2 :=
      List.foldl_concat ..
    have hnew : m.1 ∉ ms.map Prod.fst := fun hm => h.2.2 m.1 hm m.1 (by simp) rfl
    rw [hlast, ih h.1, setMember_of_notMem hnew]

/-- A document as it is kept: numbers that fit, and different names in every object. -/
inductive Proper : Json → Prop
  | null : Proper .null
  | bool (b : Bool) : Proper (.bool b)
  | number {n : JsonNumber} (h : n.Fits) : Proper (.number n)
  | string (s : String) : Proper (.string s)
  | array {items : List Json} (h : ∀ j ∈ items, Proper j) : Proper (.array items)
  | object {members : List (String × Json)} (hnames : (members.map Prod.fst).Nodup)
      (h : ∀ m ∈ members, Proper m.2) : Proper (.object members)

mutual

/-- A document with doubles for its numbers, and with lists for its empty objects. -/
def settled : Json → Json
  | .null => .null
  | .bool b => .bool b
  | .number n => .number (.double n.toDouble)
  | .string s => .string s
  | .array items => .array (settledItems items)
  | .object members => if members.isEmpty then .array [] else .object (settledMembers members)

def settledItems : List Json → List Json
  | [] => []
  | j :: js => settled j :: settledItems js

def settledMembers : List (String × Json) → List (String × Json)
  | [] => []
  | (k, j) :: ms => (k, settled j) :: settledMembers ms

end

theorem settledItems_eq (js : List Json) : settledItems js = js.map settled := by
  induction js with
  | nil => rfl
  | cons j js ih => rw [settledItems, ih]; rfl

theorem settledMembers_eq (ms : List (String × Json)) :
    settledMembers ms = ms.map fun m => (m.1, settled m.2) := by
  induction ms with
  | nil => rfl
  | cons m ms ih => rw [settledMembers, ih]; rfl

theorem ofDouble_of_isFinite {x : Float} (h : Double.IsFinite x) :
    ofDouble x = .number (.double x) := by
  obtain ⟨negative, m, q, h⟩ := h
  rw [ofDouble, h]

theorem ofDouble_of_not_isFinite {x : Float} (h : ¬ Double.IsFinite x) : ofDouble x = .null := by
  rw [ofDouble]
  split
  · rename_i hx
    exact absurd ⟨_, _, _, hx⟩ h
  · rfl

end Json

mutual

/-- What is left of a value in JSON: null for what is no finite number, and names for all entries of
an array in which some have keys. -/
def Value.norm : Value → Value
  | .null => .null
  | .bool b => .bool b
  | .number x =>
    match Double.view x with
    | .finite .. => .number x
    | _ => .null
  | .text s => .text s
  | .array es =>
    .array (if Entries.isPlainList es then Entries.ofValues (normValues es)
      else Entries.labelled (Entries.names es) (normValues es))

def normValues : List Entry → List Value
  | [] => []
  | .positional v :: es => v.norm :: normValues es
  | .keyed _ v :: es => v.norm :: normValues es

end

theorem normValues_eq (es : Entries) : normValues es = es.values.map Value.norm := by
  induction es with
  | nil => rfl
  | cons e es ih => cases e <;> (rw [normValues, ih]; rfl)

theorem toJsonItems_eq (es : Entries) : toJsonItems es = es.values.map Value.toJson := by
  induction es with
  | nil => rfl
  | cons e es ih => cases e <;> (rw [toJsonItems, ih]; rfl)

namespace Entries

variable {es : Entries} {ks : List String} {vs : List Value}

theorem isPlainList_iff : es.isPlainList = true ↔ ∀ e ∈ es, e.key? = none := by
  simp [isPlainList]

theorem values_ofValues (vs : List Value) : (ofValues vs).values = vs := by
  simp [values, ofValues, Function.comp_def]

theorem isPlainList_ofValues (vs : List Value) : (ofValues vs).isPlainList = true := by
  simp [isPlainList, ofValues]

/-- Entries without keys are their values. -/
theorem ofValues_values (h : es.isPlainList = true) : ofValues es.values = es := by
  rw [isPlainList_iff] at h
  induction es with
  | nil => rfl
  | cons e es ih =>
    rw [List.forall_mem_cons] at h
    cases e with
    | positional v => exact congrArg (Entry.positional v :: ·) (ih h.2)
    | keyed k v => cases h.1

/-- Among names there is a key. -/
theorem isPlainList_labelled (h : ks.length = vs.length) (hne : vs ≠ []) :
    (labelled ks vs).isPlainList = false := by
  cases vs with
  | nil => exact absurd rfl hne
  | cons v vs =>
    cases ks with
    | nil => cases h
    | cons k ks => rfl

theorem ne_nil_of_isPlainList (h : es.isPlainList = false) : es ≠ [] := by
  rintro rfl
  cases h

end Entries

namespace Value

variable {v : Value} {es : Entries}

theorem norm_of_isFinite {x : Float} (h : Double.IsFinite x) : norm (.number x) = .number x := by
  obtain ⟨negative, m, q, h⟩ := h
  rw [norm, h]

theorem norm_of_not_isFinite {x : Float} (h : ¬ Double.IsFinite x) : norm (.number x) = .null := by
  rw [norm]
  split
  · rename_i hx
    exact absurd ⟨_, _, _, hx⟩ h
  · rfl

theorem norm_of_isPlainList (h : es.isPlainList = true) :
    norm (.array es) = .array (Entries.ofValues (es.values.map norm)) := by
  rw [norm, if_pos h, normValues_eq]

theorem norm_of_not_isPlainList (h : es.isPlainList = false) :
    norm (.array es) = .array (Entries.labelled es.names (es.values.map norm)) := by
  rw [norm, h, if_neg (by decide), normValues_eq]

theorem toJson_of_isPlainList (h : es.isPlainList = true) :
    toJson (.array es) = .array (es.values.map toJson) := by
  rw [toJson, if_pos h, toJsonItems_eq]

theorem toJson_of_not_isPlainList (h : es.isPlainList = false) :
    toJson (.array es) = .object (Json.membersOf (es.names.zip (es.values.map toJson))) := by
  rw [toJson, h, if_neg (by decide), toJsonItems_eq]

theorem norm_ofValues (vs : List Value) :
    norm (.array (Entries.ofValues vs)) = .array (Entries.ofValues (vs.map norm)) := by
  rw [norm_of_isPlainList (Entries.isPlainList_ofValues vs), Entries.values_ofValues]

theorem toJson_ofValues (vs : List Value) :
    toJson (.array (Entries.ofValues vs)) = .array (vs.map toJson) := by
  rw [toJson_of_isPlainList (Entries.isPlainList_ofValues vs), Entries.values_ofValues]

section Labelled

variable {ks : List String} {vs : List Value}

theorem norm_labelled (h : ks.length = vs.length) (hne : vs ≠ []) :
    norm (.array (Entries.labelled ks vs)) = .array (Entries.labelled ks (vs.map norm)) := by
  rw [norm_of_not_isPlainList (Entries.isPlainList_labelled h hne), Entries.values_labelled h,
    Entries.names_labelled h]

theorem toJson_labelled (h : ks.length = vs.length) (hne : vs ≠ []) :
    toJson (.array (Entries.labelled ks vs)) =
      .object (Json.membersOf (ks.zip (vs.map toJson))) := by
  rw [toJson_of_not_isPlainList (Entries.isPlainList_labelled h hne), Entries.values_labelled h,
    Entries.names_labelled h]

end Labelled

theorem ofJson_array (items : List Json) :
    ofJson (.array items) = .array (Entries.ofValues (items.map ofJson)) := by
  rw [ofJson, ofJsonItems_eq]

/-- Members with different names become entries under these names. -/
theorem ofJson_object {ks : List String} {js : List Json} (hks : ks.Nodup)
    (h : ks.length = js.length) :
    ofJson (.object (ks.zip js)) = .array (Entries.labelled ks (js.map ofJson)) := by
  have hentries : ((ks.zip js).map fun m => Entry.keyed m.1 (ofJson m.2)) =
      Entries.labelled ks (js.map ofJson) := by
    rw [Entries.labelled, List.zipWith_map_right, List.zip, List.map_zipWith]
  have hkeys : (Entries.labelled ks (js.map ofJson)).keys = ks :=
    Entries.keys_labelled (by rw [List.length_map, h])
  rw [ofJson, ofJsonMembers_eq, Entries.ofPairs_eq, List.map_map]
  change Value.array (Entries.build ((ks.zip js).map fun m => Entry.keyed m.1 (ofJson m.2))) = _
  rw [hentries, Entries.build_of_nodup (by rwa [hkeys])]

/-- Entries have as many names as values. -/
theorem length_names_eq {α : Type} (es : Entries) (f : Value → α) :
    es.names.length = (es.values.map f).length := by
  simp [Entries.values]

/-- Where the keys are different, no member takes the place of another. -/
theorem toJson_of_nodup_keys (hplain : es.isPlainList = false) (hkeys : es.keys.Nodup) :
    toJson (.array es) = .object (es.names.zip (es.values.map toJson)) := by
  have hnodup : ((es.names.zip (es.values.map toJson)).map Prod.fst).Nodup := by
    rw [List.map_fst_zip (Nat.le_of_eq (length_names_eq es toJson))]
    exact Entries.nodup_names hkeys
  rw [toJson_of_not_isPlainList hplain, Json.membersOf_of_nodup hnodup]

/-- A value comes back from JSON as what is left of it. -/
theorem ofJson_toJson (h : v.KeysDistinct) : ofJson v.toJson = v.norm := by
  induction v using Value.byEntries with
  | null | bool | text => rfl
  | number x =>
    by_cases hx : Double.IsFinite x
    · rw [toJson, Json.ofDouble_of_isFinite hx, norm_of_isFinite hx]
      rfl
    · rw [toJson, Json.ofDouble_of_not_isFinite hx, norm_of_not_isFinite hx]
      rfl
  | array es ih =>
    obtain ⟨hkeys, hvalues⟩ := keysDistinct_array_iff.mp h
    have hmap : (es.values.map toJson).map ofJson = es.values.map norm := by
      rw [List.map_map]
      exact List.map_congr_left fun v hv => ih v hv (hvalues v hv)
    cases hplain : es.isPlainList with
    | true => rw [toJson_of_isPlainList hplain, norm_of_isPlainList hplain, ofJson_array, hmap]
    | false =>
      rw [toJson_of_nodup_keys hplain hkeys, norm_of_not_isPlainList hplain,
        ofJson_object (Entries.nodup_names hkeys) (length_names_eq es toJson), hmap]

/-- The entries of an array that is no list have at least one value. -/
theorem values_map_ne_nil (h : es.isPlainList = false) (f : Value → Value) :
    es.values.map f ≠ [] := by
  simpa [Entries.values] using Entries.ne_nil_of_isPlainList h

/-- In JSON nothing more is lost. -/
theorem toJson_norm (v : Value) : v.norm.toJson = v.toJson := by
  induction v using Value.byEntries with
  | null | bool | text => rfl
  | number x =>
    by_cases hx : Double.IsFinite x
    · rw [norm_of_isFinite hx]
    · rw [norm_of_not_isFinite hx, toJson, toJson, Json.ofDouble_of_not_isFinite hx]
  | array es ih =>
    have hmap : (es.values.map norm).map toJson = es.values.map toJson := by
      rw [List.map_map]
      exact List.map_congr_left ih
    cases hplain : es.isPlainList with
    | true => rw [norm_of_isPlainList hplain, toJson_of_isPlainList hplain, toJson_ofValues, hmap]
    | false =>
      rw [norm_of_not_isPlainList hplain, toJson_of_not_isPlainList hplain,
        toJson_labelled (length_names_eq es norm) (values_map_ne_nil hplain norm), hmap]

/-- What is left of a value comes back as it is. -/
theorem norm_norm (v : Value) : v.norm.norm = v.norm := by
  induction v using Value.byEntries with
  | null | bool | text => rfl
  | number x =>
    by_cases hx : Double.IsFinite x
    · rw [norm_of_isFinite hx, norm_of_isFinite hx]
    · rw [norm_of_not_isFinite hx]
      rfl
  | array es ih =>
    have hmap : (es.values.map norm).map norm = es.values.map norm := by
      rw [List.map_map]
      exact List.map_congr_left ih
    cases hplain : es.isPlainList with
    | true => rw [norm_of_isPlainList hplain, norm_ofValues, hmap]
    | false =>
      rw [norm_of_not_isPlainList hplain,
        norm_labelled (length_names_eq es norm) (values_map_ne_nil hplain norm), hmap]

/-- A finite number, or an array in which all entries have a key or none has. -/
def OwnRepresentable : Value → Prop
  | .number x => Double.IsFinite x
  | .array es => (∀ e ∈ es, e.key? = none) ∨ ∀ e ∈ es, e.key?.isSome
  | _ => True

/-- A value that JSON can represent. -/
def Representable (v : Value) : Prop := v.Throughout OwnRepresentable

theorem representable_array_iff :
    Representable (.array es) ↔
      ((∀ e ∈ es, e.key? = none) ∨ ∀ e ∈ es, e.key?.isSome) ∧ ∀ v ∈ es.values, v.Representable :=
  throughout_array_iff

/-- Nothing is lost of the values that JSON can represent, and of no others. -/
theorem norm_eq_self_iff (v : Value) : v.norm = v ↔ v.Representable := by
  induction v using Value.byEntries with
  | null | bool | text =>
    refine iff_of_true rfl ((throughout_iff_of_scalar rfl).mpr trivial)
  | number x =>
    refine Iff.trans ?_ (throughout_iff_of_scalar rfl).symm
    by_cases hx : Double.IsFinite x
    · exact iff_of_true (norm_of_isFinite hx) hx
    · refine iff_of_false ?_ hx
      rw [norm_of_not_isFinite hx]
      rintro ⟨⟩
  | array es ih =>
    have hvalues : es.values.map norm = es.values ↔ ∀ v ∈ es.values, v.Representable := by
      have hmap := @List.map_inj_left _ _ es.values norm id
      rw [List.map_id] at hmap
      exact hmap.trans (forall₂_congr ih)
    rw [representable_array_iff, ← hvalues]
    cases hplain : es.isPlainList with
    | true =>
      have hnone := Entries.isPlainList_iff.mp hplain
      rw [norm_of_isPlainList hplain, Value.array.injEq]
      constructor
      · intro h
        exact ⟨.inl hnone, by rw [← Entries.values_ofValues (es.values.map norm), h]⟩
      · rintro ⟨-, h⟩
        rw [h, Entries.ofValues_values hplain]
    | false =>
      have hlength := length_names_eq es norm
      rw [norm_of_not_isPlainList hplain, Value.array.injEq]
      constructor
      · intro h
        refine ⟨.inr fun e he => ?_, by rw [← Entries.values_labelled hlength, h]⟩
        exact Entries.isSome_key?_labelled (h ▸ he)
      · rintro ⟨hkeys, h⟩
        have hall : ∀ e ∈ es, e.key?.isSome := hkeys.resolve_left fun hnone => by
          rw [Entries.isPlainList_iff.mpr hnone] at hplain
          cases hplain
        rw [h, Entries.names_of_keyed hall, Entries.labelled_keys_values hall]

/-- A document comes back from its value with doubles for its numbers, and with lists for its empty
objects. -/
theorem toJson_ofJson {j : Json} (h : j.Proper) : (ofJson j).toJson = j.settled := by
  induction h with
  | null | bool | string => rfl
  | number h =>
    rw [ofJson, toJson, Json.settled]
    exact Json.ofDouble_of_isFinite (JsonNumber.isFinite_toDouble h)
  | @array items _ ih =>
    rw [ofJson_array, toJson_ofValues, Json.settled, Json.settledItems_eq, List.map_map]
    exact congrArg Json.array (List.map_congr_left ih)
  | @object members hnames _ ih =>
    cases hempty : members.isEmpty with
    | true =>
      rw [List.isEmpty_iff.mp hempty]
      rfl
    | false =>
      have hzip : (members.map Prod.fst).zip (members.map Prod.snd) = members := by
        rw [List.zip_map', List.map_id']
      have hvalues : (members.map Prod.snd).map ofJson ≠ [] := by
        simpa using List.isEmpty_eq_false_iff.mp hempty
      have hsettled : (members.map Prod.fst).zip
          (((members.map Prod.snd).map ofJson).map toJson) = Json.settledMembers members := by
        rw [Json.settledMembers_eq, List.map_map, List.map_map, List.zip_map']
        exact List.map_congr_left fun m hm => congrArg (m.1, ·) (ih m hm)
      have hfst : (Json.settledMembers members).map Prod.fst = members.map Prod.fst := by
        rw [Json.settledMembers_eq, List.map_map]
        rfl
      rw [← hzip, ofJson_object hnames (by simp), toJson_labelled (by simp) hvalues, hsettled, hzip,
        Json.membersOf_of_nodup (by rwa [hfst]), Json.settled, hempty]
      rfl

end Value

/-- Values and documents go into one another. Of a value, what comes back is what is left of it in
JSON; that is all that can be lost, and has the same document. It is the value itself exactly if all
numbers are finite and every array has keys for all entries or for none. Of a document, what comes
back is the same but for doubles in place of its numbers and lists in place of its empty objects. -/
theorem json_round_trip :
    (∀ v : Value, v.KeysDistinct → .ofJson v.toJson = v.norm) ∧
    (∀ v : Value, v.norm.norm = v.norm ∧ v.norm.toJson = v.toJson ∧
      (v.norm = v ↔ v.Representable)) ∧
    ∀ j : Json, j.Proper → (Value.ofJson j).toJson = j.settled :=
  ⟨fun _ => Value.ofJson_toJson,
    fun v => ⟨v.norm_norm, v.toJson_norm, v.norm_eq_self_iff⟩,
    fun _ => Value.toJson_ofJson⟩

/-- A list and a key, with an infinity. -/
def mixedArray : Value :=
  .array [.positional (.bool true), .keyed "0" .null,
    .positional (.number (Float.ofBits 0x7FF0000000000000))]

/-- An empty object and a whole number. -/
def mixedDocument : Json := .object [("a", .object []), ("b", .number (.whole (-1)))]

theorem json_round_trip_mixed :
    mixedArray.KeysDistinct ∧
    Value.ofJson mixedArray.toJson = .array [.keyed "1" (.bool true), .keyed "0" .null,
      .keyed "2" .null] ∧
    mixedArray.norm.toJson = mixedArray.toJson ∧ mixedArray.norm ≠ mixedArray ∧
    mixedDocument.Proper ∧
    (Value.ofJson mixedDocument).toJson =
      .object [("a", .array []), ("b", .number (.double (-1)))] := by
  obtain ⟨hvalue, hnorm, hdocument⟩ := json_round_trip
  have hdistinct : mixedArray.KeysDistinct := by
    refine Value.keysDistinct_array_iff.mpr ⟨by decide, fun v hv => ?_⟩
    simp only [Entries.values, List.map_cons, List.map_nil, List.mem_cons, List.not_mem_nil,
      or_false, Entry.value_positional, Entry.value_keyed] at hv
    rcases hv with rfl | rfl | rfl <;> exact Value.keysDistinct_of_scalar rfl
  have hproper : mixedDocument.Proper := by
    refine .object (by decide) fun m hm => ?_
    simp only [List.mem_cons, List.not_mem_nil, or_false] at hm
    rcases hm with rfl | rfl
    · exact .object List.nodup_nil fun m hm => absurd hm List.not_mem_nil
    · exact .number ⟨by decide, by decide⟩
  have hleft : mixedArray.norm = .array [.keyed "1" (.bool true), .keyed "0" .null,
      .keyed "2" .null] := rfl
  refine ⟨hdistinct, (hvalue _ hdistinct).trans hleft, (hnorm _).2.1, ?_, hproper,
    hdocument _ hproper⟩
  rw [hleft]
  rintro ⟨⟩

end Formula
