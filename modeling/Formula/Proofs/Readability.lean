import Formula.Value.Display
import Formula.Proofs.Depth
import Formula.Proofs.Numerals
import Formula.Proofs.PlainText
import Formula.Proofs.Quotation

/-! The text of an array can be read in one way only. What stands in it are words, quoted ones and
bare ones, and each tells where it ends; so an item tells its value whatever stands behind it, and
by induction on what an array holds, the text of an array tells its entries. Main statement: it does
so at the front of any text, and tells where it ends. -/
namespace Formula

/-! ### Words -/

/-- The characters that no bare word contains. -/
def IsMark (c : Char) : Prop := c ∈ [',', ']', ' ', '"', '[']

instance (c : Char) : Decidable (IsMark c) := inferInstanceAs (Decidable (_ ∈ _))

/-- What stands in the text of an array between its punctuation. -/
inductive Word
  | quoted (cs : List Char)
  | bare (cs : List Char)

namespace Word

def chars : Word → List Char
  | .quoted cs => Text.quotedChars cs
  | .bare cs => cs

/-- A bare word is not empty and has no marks in it. -/
def Plain : Word → Prop
  | .quoted _ => True
  | .bare cs => cs ≠ [] ∧ ∀ c ∈ cs, ¬ IsMark c

variable {u w : Word} {c : Char} {rest rest' : List Char}

theorem Plain.ne_mark (h : w.Plain) (hc : IsMark c) (hquote : c ≠ '"') :
    w.chars ++ rest ≠ c :: rest' := by
  cases w with
  | quoted cs =>
    rintro ⟨⟩
    exact hquote rfl
  | bare cs =>
    obtain ⟨d, ds, rfl⟩ := List.exists_cons_of_ne_nil h.1
    rintro ⟨⟩
    exact h.2 c List.mem_cons_self hc

/-- A word tells its characters, and where it ends if a mark stands behind it. -/
theorem Plain.append_injective (hu : u.Plain) (hw : w.Plain)
    (hrest : ∀ c, rest.head? = some c → IsMark c) (hrest' : ∀ c, rest'.head? = some c → IsMark c)
    (h : u.chars ++ rest = w.chars ++ rest') : u = w ∧ rest = rest' := by
  have hbare {cs tail : List Char} (hcs : ∀ c ∈ cs, ¬ IsMark c)
      (htail : ∀ c, tail.head? = some c → IsMark c) :
      (cs ++ tail).takeWhile (fun c => !decide (IsMark c)) = cs ∧
        (cs ++ tail).dropWhile (fun c => !decide (IsMark c)) = tail :=
    takeWhile_append_stop (fun c hc => by simpa using hcs c hc)
      (fun c hc => by simpa using htail c hc)
  have hquote : IsMark '"' := by decide
  cases u with
  | quoted cs =>
    cases w with
    | quoted ds =>
      obtain ⟨rfl, hrest⟩ := Text.quotedChars_append_injective h
      exact ⟨rfl, hrest⟩
    | bare ds =>
      obtain ⟨d, ds, rfl⟩ := List.exists_cons_of_ne_nil hw.1
      obtain rfl : '"' = d := (List.cons.inj h).1
      exact absurd hquote (hw.2 _ List.mem_cons_self)
  | bare cs =>
    cases w with
    | quoted ds =>
      obtain ⟨c, cs, rfl⟩ := List.exists_cons_of_ne_nil hu.1
      obtain rfl : c = '"' := (List.cons.inj h).1
      exact absurd hquote (hu.2 _ List.mem_cons_self)
    | bare ds =>
      obtain ⟨htake, hdrop⟩ := hbare hu.2 hrest
      obtain ⟨htake', hdrop'⟩ := hbare hw.2 hrest'
      have hsame : cs ++ rest = ds ++ rest' := h
      rw [hsame] at htake hdrop
      exact ⟨by rw [← htake, htake'], by rw [← hdrop, hdrop']⟩

end Word

/-! ### Keys -/

namespace Numeral

/-- Only digits, signs, the point and the letter of the exponent stand in numerals. -/
def InNumerals (c : Char) : Prop := isDigit c = true ∨ c ∈ ['-', '+', '.', 'e', 'E']

theorem IsDigits.inNumerals {w : List Char} (h : IsDigits w) : ∀ c ∈ w, InNumerals c :=
  fun c hc => .inl (h.2 c hc)

theorem IsSign.inNumerals {w : List Char} (h : IsSign w) : ∀ c ∈ w, InNumerals c := by
  cases h <;> simp [InNumerals]

theorem IsNumeral.inNumerals {cs : List Char} (h : IsNumeral cs) : ∀ c ∈ cs, InNumerals c := by
  obtain ⟨hs, hw, he⟩ := h
  rw [List.forall_mem_append, List.forall_mem_append]
  refine ⟨hs.inNumerals, fun c hc => ?_, ?_⟩
  · rcases hw.digit_or_point.2 c hc with hdigit | rfl
    · exact .inl hdigit
    · exact .inr (by decide)
  · cases he with
    | none => simp
    | some hletter hs hd =>
      rw [List.forall_mem_cons, List.forall_mem_append]
      exact ⟨.inr (by rcases hletter with rfl | rfl <;> decide), hs.inNumerals, hd.inNumerals⟩

theorem inNumerals_of_read? {cs : List Char} (h : (read? cs).isSome = true) :
    ∀ c ∈ cs, InNumerals c := (isSome_read?_iff.mp h).inNumerals

theorem read?_nil : read? [] = none := rfl

end Numeral

/-- A key as a word. -/
def keyWord (k : String) : Word :=
  if (Numeral.read? k.toList).isSome then .bare k.toList else .quoted k.toList

theorem chars_keyWord (k : String) : (keyWord k).chars = keyDisplay k := by
  unfold keyWord keyDisplay
  split <;> rfl

theorem keyWord_injective {k l : String} (h : keyWord k = keyWord l) : k = l := by
  unfold keyWord at h
  split at h <;> split at h
  · exact String.toList_inj.mp (Word.bare.inj h)
  · cases h
  · cases h
  · exact String.toList_inj.mp (Word.quoted.inj h)

theorem not_isMark_of_isDigit {c : Char} (h : Numeral.isDigit c = true) : ¬ IsMark c := by
  intro hc
  simp only [IsMark, List.mem_cons, List.not_mem_nil, or_false] at hc
  rcases hc with rfl | rfl | rfl | rfl | rfl <;> exact absurd h (by decide)

theorem plain_keyWord (k : String) : (keyWord k).Plain := by
  unfold keyWord
  split
  · rename_i hread
    refine ⟨fun hnil => ?_, fun c hc => ?_⟩
    · rw [hnil, Numeral.read?_nil] at hread
      cases hread
    · have hothers : ∀ c ∈ ['-', '+', '.', 'e', 'E'], ¬ IsMark c := by simp [IsMark]
      exact (Numeral.inNumerals_of_read? hread c hc).elim not_isMark_of_isDigit (hothers c)
  · trivial

/-! ### Items -/

/-- A value that is no array, as a word. -/
def itemWord? : Value → Option Word
  | .number x => some (.bare (Layout.plain.write x).toList)
  | .text s => some (.quoted s.toList)
  | .bool b => some (.bare (if b then ['t', 'r', 'u', 'e'] else ['f', 'a', 'l', 's', 'e']))
  | .null => some (.bare ['n', 'u', 'l', 'l'])
  | .array _ => none

variable {v w : Value} {u : Word} {e f : Entry} {es fs : Entries} {rest rest' : List Char}

theorem chars_itemWord (h : itemWord? v = some u) : displayItem v = u.chars := by
  cases v <;> cases h <;> simp only [displayItem, Word.chars]

theorem plain_itemWord (h : itemWord? v = some u) : u.Plain := by
  cases v with
  | number x =>
    cases h
    obtain ⟨hne, hchars⟩ := Layout.write_plain_chars x
    have hothers : ∀ c ∈ ['.', '-', 'N', 'a', 'i', 'n', 'f'], ¬ IsMark c := by simp [IsMark]
    refine ⟨hne, fun c hc => ?_⟩
    rcases hchars c hc with (hc | rfl) | hc
    · exact not_isMark_of_isDigit hc
    · exact hothers _ List.mem_cons_self
    · exact hothers c (List.mem_cons_of_mem _ hc)
  | text s =>
    cases h
    trivial
  | bool b => cases b <;> cases h <;> simp [Word.Plain, IsMark]
  | null =>
    cases h
    simp [Word.Plain, IsMark]
  | array es => cases h

/-- No number is written like a truth value or like null. -/
theorem write_plain_ne {x : Float} {cs : List Char} (h : 'e' ∈ cs ∨ 'u' ∈ cs) :
    (Layout.plain.write x).toList ≠ cs := by
  rintro rfl
  have hchars := (Layout.write_plain_chars x).2
  rcases h with h | h
  · exact absurd (hchars _ h) (by decide)
  · exact absurd (hchars _ h) (by decide)

/-- The words of values are different for different values. -/
theorem itemWord?_injective (hv : itemWord? v = some u) (hw : itemWord? w = some u) : v = w := by
  have htruth (b : Bool) : 'e' ∈ if b then ['t', 'r', 'u', 'e'] else ['f', 'a', 'l', 's', 'e'] := by
    cases b <;> decide
  rw [← hw] at hv
  cases v with
  | number x =>
    cases w with
    | number y =>
      rw [Layout.write_plain_injective
        (String.toList_inj.mp (Word.bare.inj (Option.some.inj hv)))]
    | bool b =>
      exact absurd (Word.bare.inj (Option.some.inj hv)) (write_plain_ne (.inl (htruth b)))
    | null => exact absurd (Word.bare.inj (Option.some.inj hv)) (write_plain_ne (.inr (by decide)))
    | text t => cases hv
    | array es => cases hv
  | text s =>
    cases w with
    | text t => rw [String.toList_inj.mp (Word.quoted.inj (Option.some.inj hv))]
    | number y => cases hv
    | bool b => cases hv
    | null => cases hv
    | array es => cases hv
  | bool b =>
    cases w with
    | number y =>
      exact absurd (Word.bare.inj (Option.some.inj hv.symm)) (write_plain_ne (.inl (htruth b)))
    | bool c => cases b <;> cases c <;> first | rfl | cases hv
    | null => cases b <;> cases hv
    | text t => cases hv
    | array es => cases hv
  | null =>
    cases w with
    | number y =>
      exact absurd (Word.bare.inj (Option.some.inj hv.symm)) (write_plain_ne (.inr (by decide)))
    | bool c => cases c <;> cases hv
    | null => rfl
    | text t => cases hv
    | array es => cases hv
  | array es =>
    rw [hw] at hv
    cases hv

/-! ### Arrays -/

/-- What stands behind an entry: the comma in front of the next one, or the end of the array. -/
def Closes (rest : List Char) : Prop := ∀ c, rest.head? = some c → c = ',' ∨ c = ']'

theorem Closes.isMark (h : Closes rest) : ∀ c, rest.head? = some c → IsMark c := by
  intro c hc
  rcases h c hc with rfl | rfl <;> decide

/-- An item tells its value and where it ends. -/
def Reads (v : Value) : Prop :=
  ∀ {w : Value} {rest rest' : List Char}, Closes rest → Closes rest' →
    displayItem v ++ rest = displayItem w ++ rest' → v = w ∧ rest = rest'

theorem displayItem_array (es : Entries) (rest : List Char) :
    displayItem (.array es) ++ rest = '[' :: (displayEntries es ++ ']' :: rest) := by
  simp [displayItem]

/-- An item is a word or the text of an array. -/
theorem itemWord?_cases (v : Value) : (∃ u, itemWord? v = some u) ∨ ∃ es, v = .array es := by
  cases v with
  | array es => exact .inr ⟨es, rfl⟩
  | null => exact .inl ⟨_, rfl⟩
  | bool b => exact .inl ⟨_, rfl⟩
  | number x => exact .inl ⟨_, rfl⟩
  | text s => exact .inl ⟨_, rfl⟩

/-- No item in front of its end reads like a key in front of its arrow. -/
theorem displayItem_ne_key (hrest : Closes rest) (k : String) :
    displayItem v ++ rest ≠ keyDisplay k ++ ' ' :: rest' := by
  intro h
  rw [← chars_keyWord] at h
  rcases itemWord?_cases v with ⟨u, hu⟩ | ⟨es, rfl⟩
  · rw [chars_itemWord hu] at h
    have hspace : ∀ c, (' ' :: rest').head? = some c → IsMark c := by
      rintro _ ⟨⟩
      decide
    obtain ⟨-, rfl⟩ := (plain_itemWord hu).append_injective (plain_keyWord k) hrest.isMark hspace h
    rcases hrest ' ' rfl with hc | hc <;> cases hc
  · rw [displayItem_array] at h
    exact (plain_keyWord k).ne_mark (by decide) (by decide) h.symm

/-- No entry begins like the end of an array. -/
theorem displayChars_ne_close : e.displayChars ++ rest ≠ ']' :: rest' := by
  cases e with
  | positional v =>
    rw [Entry.displayChars]
    rcases itemWord?_cases v with ⟨u, hu⟩ | ⟨es, rfl⟩
    · rw [chars_itemWord hu]
      exact (plain_itemWord hu).ne_mark (by decide) (by decide)
    · rw [displayItem_array]
      rintro ⟨⟩
  | keyed k v =>
    rw [Entry.displayChars, ← chars_keyWord, List.append_assoc]
    exact (plain_keyWord k).ne_mark (by decide) (by decide)

/-- An entry tells its key and its value, and where it ends. -/
theorem Entry.displayChars_append_injective (hv : Reads e.value) (hrest : Closes rest)
    (hrest' : Closes rest') (h : e.displayChars ++ rest = f.displayChars ++ rest') :
    e = f ∧ rest = rest' := by
  cases e with
  | positional v =>
    cases f with
    | positional w =>
      obtain ⟨rfl, hsame⟩ := hv hrest hrest' h
      exact ⟨rfl, hsame⟩
    | keyed l w =>
      rw [Entry.displayChars, Entry.displayChars, List.append_assoc] at h
      exact absurd h (displayItem_ne_key hrest l)
  | keyed k v =>
    cases f with
    | positional w =>
      rw [Entry.displayChars, Entry.displayChars, List.append_assoc] at h
      exact absurd h.symm (displayItem_ne_key hrest' k)
    | keyed l w =>
      rw [Entry.displayChars, Entry.displayChars, ← chars_keyWord, ← chars_keyWord,
        List.append_assoc, List.append_assoc] at h
      have hspace (cs : List Char) : ∀ c, (' ' :: cs).head? = some c → IsMark c := by
        rintro _ ⟨⟩
        decide
      obtain ⟨hkey, htail⟩ :=
        (plain_keyWord k).append_injective (plain_keyWord l) (hspace _) (hspace _) h
      obtain rfl := keyWord_injective hkey
      obtain ⟨rfl, hsame⟩ := hv hrest hrest' (by simpa using htail)
      exact ⟨rfl, hsame⟩

theorem closes_displayMore (es : Entries) (rest : List Char) :
    Closes (displayMore es ++ ']' :: rest) := by
  cases es with
  | nil =>
    rintro c ⟨⟩
    exact .inr rfl
  | cons e es =>
    rintro c ⟨⟩
    exact .inl rfl

theorem displayMore_append_injective (hes : ∀ e ∈ es, Reads e.value) {fs : Entries}
    (h : displayMore es ++ ']' :: rest = displayMore fs ++ ']' :: rest') :
    es = fs ∧ rest = rest' := by
  induction es generalizing fs with
  | nil =>
    cases fs with
    | nil => exact ⟨rfl, (List.cons.inj h).2⟩
    | cons f fs => cases h
  | cons e es ih =>
    cases fs with
    | nil => cases h
    | cons f fs =>
      rw [List.forall_mem_cons] at hes
      simp only [displayMore, List.cons_append, List.append_assoc, List.cons.injEq, true_and] at h
      obtain ⟨rfl, hmore⟩ := Entry.displayChars_append_injective hes.1 (closes_displayMore es rest)
        (closes_displayMore fs rest') h
      obtain ⟨rfl, hsame⟩ := ih hes.2 hmore
      exact ⟨rfl, hsame⟩

theorem displayEntries_append_injective (hes : ∀ e ∈ es, Reads e.value) {fs : Entries}
    (h : displayEntries es ++ ']' :: rest = displayEntries fs ++ ']' :: rest') :
    es = fs ∧ rest = rest' := by
  cases es with
  | nil =>
    cases fs with
    | nil => exact ⟨rfl, (List.cons.inj h).2⟩
    | cons f fs =>
      rw [displayEntries, displayEntries, List.append_assoc] at h
      exact absurd h.symm displayChars_ne_close
  | cons e es =>
    rw [displayEntries, List.append_assoc] at h
    cases fs with
    | nil => exact absurd h displayChars_ne_close
    | cons f fs =>
      rw [List.forall_mem_cons] at hes
      rw [displayEntries, List.append_assoc] at h
      obtain ⟨rfl, hmore⟩ := Entry.displayChars_append_injective hes.1 (closes_displayMore es rest)
        (closes_displayMore fs rest') h
      obtain ⟨rfl, hsame⟩ := displayMore_append_injective hes.2 hmore
      exact ⟨rfl, hsame⟩

theorem reads_of_word (hu : itemWord? v = some u) : Reads v := by
  intro w rest rest' hrest hrest' h
  rw [chars_itemWord hu] at h
  rcases itemWord?_cases w with ⟨u', hu'⟩ | ⟨fs, rfl⟩
  · rw [chars_itemWord hu'] at h
    obtain ⟨rfl, hsame⟩ := (plain_itemWord hu).append_injective (plain_itemWord hu') hrest.isMark
      hrest'.isMark h
    exact ⟨itemWord?_injective hu hu', hsame⟩
  · rw [displayItem_array] at h
    exact absurd h ((plain_itemWord hu).ne_mark (by decide) (by decide))

/-- Every item can be read in one way only. -/
theorem reads (v : Value) : Reads v := by
  induction v using Value.byEntries with
  | null => exact reads_of_word rfl
  | bool b => exact reads_of_word rfl
  | number x => exact reads_of_word rfl
  | text s => exact reads_of_word rfl
  | array es ih =>
    intro w rest rest' hrest hrest' h
    rw [displayItem_array] at h
    rcases itemWord?_cases w with ⟨u, hu⟩ | ⟨fs, rfl⟩
    · rw [chars_itemWord hu] at h
      exact absurd h.symm ((plain_itemWord hu).ne_mark (by decide) (by decide))
    · rw [displayItem_array, List.cons.injEq] at h
      obtain ⟨rfl, hsame⟩ :=
        displayEntries_append_injective (fun e he => ih _ (List.mem_map_of_mem he)) h.2
      exact ⟨rfl, hsame⟩

/-- The text of an array tells its entries and where it ends. -/
theorem displayChars_array_append_injective {fs : Entries}
    (h : Value.displayChars (.array es) ++ rest = Value.displayChars (.array fs) ++ rest') :
    es = fs ∧ rest = rest' := by
  simp only [Value.displayChars, List.cons_append, List.append_assoc, List.nil_append,
    List.cons.injEq, true_and] at h
  exact displayEntries_append_injective (fun e _ => reads e.value) h

theorem displayChars_array_injective {fs : Entries}
    (h : Value.displayChars (.array es) = Value.displayChars (.array fs)) : es = fs :=
  (displayChars_array_append_injective (congrArg (· ++ []) h)).1

/-- Arrays that are shown alike are the same, with the same entries in the same order, the same keys
and the same values at any depth; and no text of an array is the beginning of another one. -/
theorem display_array_readable (es fs : Entries) (s t : String) :
    Value.display (.array es) ++ s = Value.display (.array fs) ++ t ↔ es = fs ∧ s = t := by
  constructor
  · intro h
    have hchars := congrArg String.toList h
    simp only [Value.display, String.toList_append, String.toList_ofList] at hchars
    obtain ⟨hentries, hrest⟩ := displayChars_array_append_injective hchars
    exact ⟨hentries, String.toList_inj.mp hrest⟩
  · rintro ⟨rfl, rfl⟩
    rfl

end Formula
