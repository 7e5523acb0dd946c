import Formula.Json.Basic
import Formula.Value.Entries

/-! Values inside values, and documents inside documents. An array holds its values and what they
hold, and what is proved of an array from its values is proved of every value. -/
namespace Formula

namespace Value

/-- The second value is the first or stands somewhere in it. -/
inductive Holds : Value → Value → Prop
  | self (v : Value) : Holds v v
  | entry {es : Entries} {v w : Value} (hv : v ∈ es.values) (h : Holds v w) : Holds (.array es) w

/-- The value has the property, and so does everything that it holds. -/
def Throughout (P : Value → Prop) (v : Value) : Prop := ∀ w, v.Holds w → P w

variable {P : Value → Prop} {v : Value} {es : Entries}

theorem throughout_array_iff :
    Throughout P (.array es) ↔ P (.array es) ∧ ∀ v ∈ es.values, v.Throughout P := by
  constructor
  · intro h
    exact ⟨h _ (.self _), fun v hv w hw => h w (.entry hv hw)⟩
  · rintro ⟨hes, hvs⟩ w hw
    cases hw with
    | self => exact hes
    | entry hv hw => exact hvs _ hv w hw

/-- What is no array holds only itself. -/
theorem throughout_iff_of_scalar (h : v.entries? = none) : v.Throughout P ↔ P v := by
  constructor
  · exact fun hv => hv v (.self v)
  · intro hv w hw
    cases hw with
    | self => exact hv
    | entry => cases h

theorem Throughout.head (h : v.Throughout P) : P v := h v (.self v)

theorem Throughout.value (h : Throughout P (.array es)) : ∀ v ∈ es.values, v.Throughout P :=
  (throughout_array_iff.mp h).2

/-- Induction on what a value holds. -/
@[elab_as_elim]
theorem byEntries {motive : Value → Prop} (null : motive .null) (bool : ∀ b, motive (.bool b))
    (number : ∀ x, motive (.number x)) (text : ∀ s, motive (.text s))
    (array : ∀ es : Entries, (∀ v ∈ es.values, motive v) → motive (.array es)) (v : Value) :
    motive v := by
  refine @Value.rec motive (fun e => motive e.value) (fun es => ∀ v ∈ Entries.values es, motive v)
    null bool number text array (fun _ hv => hv) (fun _ _ hv => hv) ?nil ?cons v
  case nil => exact fun _ hv => absurd hv List.not_mem_nil
  case cons =>
    intro e es he hes v hv
    rcases List.mem_cons.mp hv with rfl | hv
    · exact he
    · exact hes v hv

end Value

/-- Induction on the items and the members of a document. -/
@[elab_as_elim]
theorem Json.byMembers {motive : Json → Prop} (null : motive .null) (bool : ∀ b, motive (.bool b))
    (number : ∀ n, motive (.number n)) (string : ∀ s, motive (.string s))
    (array : ∀ items, (∀ j ∈ items, motive j) → motive (.array items))
    (object : ∀ members : List (String × Json), (∀ m ∈ members, motive m.2) →
      motive (.object members)) (j : Json) : motive j := by
  refine @Json.rec motive (fun items => ∀ j ∈ items, motive j)
    (fun members => ∀ m ∈ members, motive m.2) (fun m => motive m.2)
    null bool number string array object ?nil ?cons ?none ?more (fun _ _ hj => hj) j
  case nil | none => exact fun _ h => absurd h List.not_mem_nil
  case cons | more =>
    intro x xs hx hxs y hy
    rcases List.mem_cons.mp hy with rfl | hy
    · exact hx
    · exact hxs y hy

end Formula
