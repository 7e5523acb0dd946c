import Formula.Operation
import Formula.Proofs.Readability
import Mathlib

/-! The six comparison operators and the laws between them. Equality of arrays goes by structure and
their order by text, so the laws hold where the two agree: for all pairs but an array with NaN in it
and itself, and arrays without NaN that differ in the signs of zeros and in nothing else. -/
namespace Formula

/-! ### Equality of structure -/

mutual

/-- The value with the signs of zeros forgotten. -/
def Value.oneZero : Value → Value
  | .number x => .number (Double.oneZero x)
  | .array es => .array (oneZeros es)
  | .text s => .text s
  | .bool b => .bool b
  | .null => .null

def Entry.oneZero : Entry → Entry
  | .positional v => .positional v.oneZero
  | .keyed k v => .keyed k v.oneZero

def oneZeros : List Entry → List Entry
  | [] => []
  | e :: es => e.oneZero :: oneZeros es

end

namespace Value

/-- There is no NaN in the value. -/
def NanFree (v : Value) : Prop := v.Throughout fun w => ∀ x, w = .number x → Double.view x ≠ .nan

variable {v w : Value} {e f : Entry} {es fs : Entries}

theorem nanFree_number {x : Float} : NanFree (.number x) ↔ Double.view x ≠ .nan := by
  rw [NanFree, throughout_iff_of_scalar rfl]
  exact ⟨fun h => h x rfl, by rintro h _ ⟨⟩; exact h⟩

theorem nanFree_of_scalar (h : v.entries? = none) (hx : ∀ x, v ≠ .number x) : v.NanFree :=
  (throughout_iff_of_scalar h).mpr fun x hv => absurd hv (hx x)

theorem nanFree_array : NanFree (.array es) ↔ ∀ e ∈ es, e.value.NanFree := by
  rw [NanFree, throughout_array_iff]
  simp [NanFree, Entries.values]

/-- A value is equal to those that it is the same as but for the signs of zeros, if it is free of
NaN. -/
def EqualIff (v : Value) : Prop := ∀ w, v.equal w = true ↔ v.NanFree ∧ v.oneZero = w.oneZero

end Value

variable {v w : Value} {e f : Entry} {es fs : Entries}

theorem Entry.equal_iff (he : e.value.EqualIff) :
    e.equal f = true ↔ e.value.NanFree ∧ e.oneZero = f.oneZero := by
  cases e with
  | positional v =>
    cases f with
    | positional w =>
      rw [Entry.equal, Entry.oneZero, Entry.oneZero, Entry.positional.injEq]
      exact he w
    | keyed l w => simp [Entry.equal, Entry.oneZero]
  | keyed k v =>
    cases f with
    | positional w => simp [Entry.equal, Entry.oneZero]
    | keyed l w =>
      have hv : v.equal w = true ↔ v.NanFree ∧ v.oneZero = w.oneZero := he w
      rw [Entry.equal, Entry.oneZero, Entry.oneZero, Entry.keyed.injEq, Bool.and_eq_true,
        beq_iff_eq, hv]
      exact and_left_comm

theorem equalEntries_iff (hes : ∀ e ∈ es, e.value.EqualIff) {fs : Entries} :
    equalEntries es fs = true ↔ (∀ e ∈ es, e.value.NanFree) ∧ oneZeros es = oneZeros fs := by
  induction es generalizing fs with
  | nil => cases fs <;> simp [equalEntries, oneZeros]
  | cons e es ih =>
    cases fs with
    | nil => simp [equalEntries, oneZeros]
    | cons f fs =>
      rw [List.forall_mem_cons] at hes ⊢
      simp only [equalEntries, Bool.and_eq_true, Entry.equal_iff hes.1, ih hes.2, oneZeros,
        List.cons.injEq]
      exact and_and_and_comm

/-- Equality of structure is sameness but for the signs of zeros, of values free of NaN. -/
theorem Value.equal_iff (v : Value) : v.EqualIff := by
  induction v using Value.byEntries with
  | null =>
    intro w
    have hfree : NanFree .null := nanFree_of_scalar rfl (by rintro x ⟨⟩)
    cases w <;> simp [Value.equal, oneZero, hfree]
  | bool b =>
    intro w
    have hfree : NanFree (.bool b) := nanFree_of_scalar rfl (by rintro x ⟨⟩)
    cases w <;> simp [Value.equal, oneZero, hfree]
  | text s =>
    intro w
    have hfree : NanFree (.text s) := nanFree_of_scalar rfl (by rintro x ⟨⟩)
    cases w <;> simp [Value.equal, oneZero, hfree]
  | number x =>
    intro w
    rw [nanFree_number]
    cases w <;> simp [Value.equal, oneZero, Double.equal_iff]
  | array es ih =>
    intro w
    rw [nanFree_array]
    cases w with
    | array fs =>
      rw [Value.equal, oneZero, oneZero, Value.array.injEq]
      exact equalEntries_iff fun e he => ih _ (List.mem_map_of_mem he)
    | null => simp [Value.equal, oneZero]
    | bool b => simp [Value.equal, oneZero]
    | text s => simp [Value.equal, oneZero]
    | number x => simp [Value.equal, oneZero]

/-! ### Order -/

/-- Exchanging two values exchanges before and behind. -/
theorem Value.compare?_swap (v w : Value) : w.compare? v = (v.compare? w).map .swap := by
  have htext (s t : String) : some (compare t s) = (some (compare s t)).map .swap :=
    congrArg some Std.OrientedCmp.eq_swap
  rw [Value.compare?, Value.compare?]
  cases v.number? with
  | none => cases w.number? <;> exact htext _ _
  | some x =>
    cases w.number? with
    | none => exact htext _ _
    | some y => exact Double.compare?_swap x y

namespace Operation

/-- The laws between the six comparisons of two values. -/
structure Coherent (v w : Value) : Prop where
  notEqual : comparison .notEqual v w = !comparison .equal v w
  swap : comparison .less v w = comparison .greater w v
  lessEqual : comparison .lessEqual v w = (comparison .less v w || comparison .equal v w)
  greaterEqual : comparison .greaterEqual v w = (comparison .greater v w || comparison .equal v w)
  atMostOne : [comparison .less v w, comparison .equal v w, comparison .greater v w].count true ≤ 1

/-- The pairs of arrays on which structure and text do not agree: an array with NaN in it and
itself, and two arrays free of NaN that are not the same, but are so but for the signs of zeros. -/
inductive Discordant : Value → Value → Prop
  | nan {es : Entries} (h : ¬ Value.NanFree (.array es)) : Discordant (.array es) (.array es)
  | zeros {es fs : Entries} (h : Value.NanFree (.array es)) (hne : es ≠ fs)
    (hsame : oneZeros es = oneZeros fs) : Discordant (.array es) (.array fs)

/-- All comparisons but those for equality go by order. -/
theorem comparison_of_ordering {op : Kind} (h : op ≠ .equal) (h' : op ≠ .notEqual) (v w : Value) :
    comparison op v w = compareByOrder op v w := by
  unfold comparison
  split
  · exact absurd rfl h
  · exact absurd rfl h'
  · rfl

theorem comparison_notEqual (v w : Value) :
    comparison .notEqual v w = !comparison .equal v w := by
  have horder : compareByOrder .notEqual v w = !compareByOrder .equal v w := by
    unfold compareByOrder
    cases v.compare? w with
    | none => rfl
    | some o => cases o <;> rfl
  cases v <;> cases w <;> first | exact horder | rfl

theorem comparison_less (v w : Value) : comparison .less v w = comparison .greater w v := by
  rw [comparison_of_ordering (by decide) (by decide), comparison_of_ordering (by decide) (by decide),
    compareByOrder, compareByOrder, v.compare?_swap w]
  cases v.compare? w with
  | none => rfl
  | some o => cases o <;> rfl

/-- Of values that have an order, the laws say that those are equal of which neither comes first. -/
theorem coherent_iff_of_some {o : Ordering} (ho : v.compare? w = some o) :
    Coherent v w ↔ (comparison .equal v w = true ↔ o = .eq) := by
  have horder {op : Kind} (h : op ≠ .equal) (h' : op ≠ .notEqual) :
      comparison op v w = agrees op o := by
    rw [comparison_of_ordering h h', compareByOrder, ho]
  have hless := @horder .less (by decide) (by decide)
  have hgreater := @horder .greater (by decide) (by decide)
  have hlessEqual := @horder .lessEqual (by decide) (by decide)
  have hgreaterEqual := @horder .greaterEqual (by decide) (by decide)
  constructor
  · rintro ⟨-, -, hlaw, hlaw', hone⟩
    rw [hlessEqual, hless] at hlaw
    rw [hgreaterEqual, hgreater] at hlaw'
    rw [hless, hgreater] at hone
    revert hlaw hlaw' hone
    cases o <;> cases comparison .equal v w <;> decide
  · intro h
    refine ⟨comparison_notEqual v w, comparison_less v w, ?_, ?_, ?_⟩
    · rw [hlessEqual, hless]
      revert h
      cases o <;> cases comparison .equal v w <;> decide
    · rw [hgreaterEqual, hgreater]
      revert h
      cases o <;> cases comparison .equal v w <;> decide
    · rw [hless, hgreater]
      revert h
      cases o <;> cases comparison .equal v w <;> decide

/-- Where equality goes by order as well, all laws hold. -/
theorem coherent_of_order (h : comparison .equal v w = compareByOrder .equal v w) :
    Coherent v w := by
  cases ho : v.compare? w with
  | some o =>
    rw [coherent_iff_of_some ho, h, compareByOrder, ho]
    exact beq_iff_eq
  | none =>
    -- nothing but inequality holds without an order
    have horder {op : Kind} (hop : op ≠ .notEqual) : comparison op v w = false := by
      by_cases heq : op = .equal
      · rw [heq, h, compareByOrder, ho]
        rfl
      · rw [comparison_of_ordering heq hop, compareByOrder, ho]
        exact beq_false_of_ne hop
    refine ⟨comparison_notEqual v w, comparison_less v w, ?_, ?_, ?_⟩
    · rw [horder (by decide), horder (by decide), horder (by decide)]
      rfl
    · rw [horder (by decide), horder (by decide), horder (by decide)]
      rfl
    · rw [horder (by decide), horder (by decide), horder (by decide)]
      decide

/-- Arrays have the same text if they are the same. -/
theorem compare_display_array :
    compare (Value.display (.array es)) (Value.display (.array fs)) = .eq ↔ es = fs := by
  rw [Std.compare_eq_iff_eq, Value.display, Value.display, String.ofList_inj]
  exact ⟨displayChars_array_injective, by rintro rfl; rfl⟩

/-- Arrays come in the order of their texts, so the laws hold if those are equal that are the
same. -/
theorem coherent_array_iff :
    Coherent (.array es) (.array fs) ↔ (equalEntries es fs = true ↔ es = fs) := by
  rw [coherent_iff_of_some rfl]
  exact iff_congr Iff.rfl compare_display_array

theorem discordant_array_iff :
    Discordant (.array es) (.array fs) ↔ ¬ (equalEntries es fs = true ↔ es = fs) := by
  have hequal := (Value.array es).equal_iff (.array fs)
  rw [Value.equal, Value.oneZero, Value.oneZero, Value.array.injEq] at hequal
  rw [hequal]
  constructor
  · rintro (hnan | ⟨hfree, hne, hsame⟩)
    · exact fun h => hnan (h.mpr rfl).1
    · exact fun h => hne (h.mp ⟨hfree, hsame⟩)
  · intro h
    by_cases hes : es = fs
    · subst hes
      exact .nan fun hfree => h (iff_of_true ⟨hfree, rfl⟩ rfl)
    · by_cases hboth : Value.NanFree (.array es) ∧ oneZeros es = oneZeros fs
      · exact .zeros hboth.1 hes hboth.2
      · exact absurd (iff_of_false hboth hes) h

/-- The comparisons are coherent, but for arrays on which structure and text do not agree. -/
theorem comparison_coherent (v w : Value) :
    comparison .notEqual v w = !comparison .equal v w ∧
      comparison .less v w = comparison .greater w v ∧ (Coherent v w ↔ ¬ Discordant v w) := by
  refine ⟨comparison_notEqual v w, comparison_less v w, ?_⟩
  by_cases harrays : ∃ es fs, v = .array es ∧ w = .array fs
  · obtain ⟨es, fs, rfl, rfl⟩ := harrays
    rw [coherent_array_iff, discordant_array_iff, not_not]
  · refine iff_of_true (coherent_of_order ?_) ?_
    · cases v <;> cases w <;> first | rfl | exact absurd ⟨_, _, rfl, rfl⟩ harrays
    · rintro (_ | _)
      · exact harrays ⟨_, _, rfl, rfl⟩
      · exact harrays ⟨_, _, rfl, rfl⟩

/-- Negative zero is equal to zero in an array, and yet its text comes first; and NaN in an array is
not equal to itself, although the text is the same. -/
theorem not_coherent_signedZero_nan :
    ¬ Coherent (.array [.positional (.number (-0.0))]) (.array [.positional (.number 0.0)]) ∧
      ¬ Coherent (.array [.positional (.number Double.nan)])
        (.array [.positional (.number Double.nan)]) := by
  constructor
  · intro h
    exact absurd h.atMostOne (by decide +kernel)
  · intro h
    exact absurd h.lessEqual (by decide +kernel)

end Operation

end Formula
