import Formula.Proofs.Placement

/-! Texts that cannot be read. No lexeme begins with a quote that nothing closes, with a dollar sign
that no name in braces follows, or with a character that has no use; with anything else one does.
Main statement: a scan fails exactly where lexeme by lexeme it comes to such a place, which its
fault shows, and every lexeme brings it forward by whole characters. -/
namespace Formula

namespace Lexeme

/-- The characters that symbols begin with. -/
def symbolCharacters : List Char :=
  ['!', ',', '>', '<', '=', '&', '|', '+', '-', '*', '/', '^', '%', '(', ')', '[', ']']

/-- Texts that no lexeme begins. -/
inductive Unreadable : List Char → Prop
  | quote {q body} (hq : isQuote q = true) (hbody : q ∉ body) : Unreadable (q :: body)
  | dollar {body} (hbody : ¬ ∃ name rest,
      body = '\x7b' :: (name ++ '\x7d' :: rest) ∧ name ≠ [] ∧ '\x7d' ∉ name) :
      Unreadable ('$' :: body)
  | character {c body} (hs : c ∉ symbolCharacters) (hd : Numeral.isDigit c = false)
      (hw : isWordCharacter c = false) (hb : Unicode.isBlank c = false) (hh : c ≠ '#')
      (hq : isQuote c = false) (hn : c ≠ '$') : Unreadable (c :: body)

variable {c q : Char} {cs body : List Char}

theorem singleSymbol?_eq_none_iff : singleSymbol? c = none ↔ c ∉ symbolCharacters := by
  unfold singleSymbol?
  split <;> simp_all [symbolCharacters]

theorem text?_eq_none_iff : text? (q :: body) = none ↔ (isQuote q = true → q ∉ body) := by
  cases hq : isQuote q with
  | false => simp [text?, hq]
  | true =>
    rw [text?, if_pos hq]
    split
    · rename_i close rest hrest
      obtain ⟨rfl, -⟩ := takeWhile_ne hrest
      have hmem : close ∈ body := (List.dropWhile_sublist _).subset (by rw [hrest]; simp)
      simp [hmem]
    · rename_i hnone
      have hall := List.dropWhile_eq_nil_iff.mp hnone
      simpa using fun hmem => by simpa using hall q hmem

theorem explicitWord?_eq_none_iff :
    explicitWord? body = none ↔
      ¬ ∃ name rest, body = name ++ '\x7d' :: rest ∧ name ≠ [] ∧ '\x7d' ∉ name := by
  constructor
  · rintro h ⟨name, rest, rfl, hname, hclose⟩
    obtain ⟨htake, hdrop⟩ := takeWhile_ne_append hclose rest
    simp [explicitWord?, htake, hdrop, hname] at h
  · intro h
    unfold explicitWord?
    split
    · rename_i close rest hrest
      obtain ⟨rfl, hclose⟩ := takeWhile_ne hrest
      have hbody := List.takeWhile_append_dropWhile (p := (· != '\x7d')) (l := body)
      rw [hrest] at hbody
      refine if_pos (by_contra fun hname => h ⟨_, rest, hbody.symm, ?_, hclose⟩)
      simpa using hname
    · rfl

theorem word?_dollar_eq_none_iff :
    word? ('$' :: body) = none ↔ ¬ ∃ name rest,
      body = '\x7b' :: (name ++ '\x7d' :: rest) ∧ name ≠ [] ∧ '\x7d' ∉ name := by
  have hdollar : isWordCharacter '$' = false := by decide +kernel
  unfold word?
  split
  · rename_i body heq
    obtain rfl := (List.cons.inj heq).2
    rw [explicitWord?_eq_none_iff]
    simp
  · rename_i hnot
    refine iff_of_true (by simp [hdollar]) ?_
    rintro ⟨name, rest, rfl, -⟩
    exact hnot _ rfl

theorem word?_eq_none_iff (hc : c ≠ '$') : word? (c :: body) = none ↔ isWordCharacter c = false := by
  unfold word?
  split
  · rename_i heq
    exact absurd (List.cons.inj heq).1 hc
  · cases hw : isWordCharacter c <;> simp [hw]

theorem trivia?_eq_none_iff :
    trivia? (c :: body) = none ↔ c ≠ '#' ∧ Unicode.isBlank c = false := by
  by_cases hc : c = '#'
  · refine iff_of_false ?_ fun h => h.1 hc
    rw [trivia?, if_pos hc]
    split <;> simp
  · cases hb : Unicode.isBlank c <;> simp [trivia?, hc, hb]

/-- Some lexeme begins every text but those that cannot be read. -/
theorem cut?_eq_none_iff : cut? cs = none ↔ cs = [] ∨ Unreadable cs := by
  constructor
  · intro h
    cases cs with
    | nil => exact .inl rfl
    | cons c body =>
      simp only [cut?_eq, Option.or_eq_none_iff] at h
      obtain ⟨hs, hn, hw, ht, hv⟩ := h
      rw [symbol?_cons_eq_none_iff, singleSymbol?_eq_none_iff] at hs
      rw [number?, Option.map_eq_none_iff, Numeral.Mantissa.cut?_cons_eq_none_iff] at hn
      rw [text?_eq_none_iff] at ht
      rw [trivia?_eq_none_iff] at hv
      refine .inr ?_
      cases hq : isQuote c with
      | true => exact .quote hq (ht hq)
      | false =>
        by_cases hc : c = '$'
        · subst hc
          exact .dollar (word?_dollar_eq_none_iff.mp hw)
        · exact .character hs hn.1 ((word?_eq_none_iff hc).mp hw) hv.2 hv.1 hq hc
  · rintro (rfl | ⟨hq, hbody⟩ | hbody | ⟨hs, -, hw, hb, hh, hq, hn⟩)
    · rfl
    · rename_i q body
      have hplain : singleSymbol? q = none ∧ isWordCharacter q = false ∧ q ≠ '$' ∧ q ≠ '#' ∧
          Unicode.isBlank q = false := by
        simp only [isQuote, Bool.or_eq_true, beq_iff_eq] at hq
        rcases hq with rfl | rfl <;> decide +kernel
      obtain ⟨hs, hw, hn, hh, hb⟩ := hplain
      rw [cut?_cons_eq hs hw hn, Option.or_eq_none_iff]
      exact ⟨text?_eq_none_iff.mpr fun _ => hbody, trivia?_eq_none_iff.mpr ⟨hh, hb⟩⟩
    · rename_i body
      simp only [cut?_eq, Option.or_eq_none_iff]
      refine ⟨symbol?_cons_eq_none_iff.mpr rfl, ?_, word?_dollar_eq_none_iff.mpr hbody,
        text?_eq_none_iff.mpr (by rintro ⟨⟩), trivia?_eq_none_iff.mpr (by decide)⟩
      rw [number?, Option.map_eq_none_iff, Numeral.Mantissa.cut?_cons_eq_none_iff]
      exact ⟨by decide, by rintro ⟨⟩⟩
    · rw [cut?_cons_eq (singleSymbol?_eq_none_iff.mpr hs) hw hn, Option.or_eq_none_iff]
      refine ⟨text?_eq_none_iff.mpr fun hquote => ?_, trivia?_eq_none_iff.mpr ⟨hh, hb⟩⟩
      rw [hq] at hquote
      cases hquote

end Lexeme

/-- What is left behind one more lexeme is left as well. -/
theorem Lexeme.Leaves.snoc {cs before rest : List Char} {x : Cut} (h : Leaves cs before rest)
    (hx : cut? rest = some x) : Leaves cs (before ++ x.spelling) x.rest := by
  induction h with
  | all => simpa using Leaves.cut hx .all
  | cut hcut _ ih =>
    rw [List.append_assoc]
    exact .cut hcut (ih hx)

namespace Scan

variable {emitted : List Token} {p : Place} {cs before rest : List Char}

/-- A scan that is led to a place that it cannot read fails there. -/
theorem run_of_leaves (h : Lexeme.Leaves cs before rest) (hne : rest ≠ [])
    (hx : Lexeme.cut? rest = none) :
    run acceptAll () emitted p cs = (.error (.unexpectedInput (p.advance before) rest), ()) := by
  induction h generalizing emitted p with
  | all => exact run_none hne hx
  | cut hcut _ ih => rw [run_cut hcut, ih hne hx, Place.advance_append]

end Scan

/-- The fault of a text that cannot be read any further behind `before`. -/
def unreadable (before : List Char) (c : Char) (body : List Char) : Fault :=
  .syntaxFault .unexpectedInput
    { message := "no token matches the input"
      span := some
        { start := bytes before
          stop := bytes before + c.utf8Size
          line := 1 + before.count '\n'
          column := 1 + (before.rtakeWhile (· != '\n')).length }
      fragment := some (String.ofList ((c :: body).take 20))
      suggestion := none }

theorem unexpectedInput_eq (before : List Char) (c : Char) (body : List Char) :
    Fault.unexpectedInput (Place.origin.advance before) (c :: body) = unreadable before c body := by
  rw [Place.advance_origin]
  simp [Fault.unexpectedInput, unreadable, Fault.ofSyntax, Fault.withFragment, Fault.withSpan,
    Fault.mapDetails, Fault.fragment, Fault.fragmentLength, Place.spanOf]

theorem tokenize_eq_error_iff {source : String} {e : Fault} :
    tokenize source = .error e ↔ ∃ before c body,
      Lexeme.Leaves source.toList before (c :: body) ∧ Lexeme.Unreadable (c :: body) ∧
        e = unreadable before c body := by
  constructor
  · intro h
    obtain ⟨calls, -, hfollows⟩ :=
      Scan.follows_of_run Scan.acceptAll () [] [] .origin source.toList
    obtain ⟨before, rest, hleaves, hne, hx, rfl⟩ := hfollows.stuck_of_error (map_eq_error.mp h)
    obtain ⟨c, body, rfl⟩ := List.exists_cons_of_ne_nil hne
    exact ⟨before, c, body, hleaves, (Lexeme.cut?_eq_none_iff.mp hx).resolve_left hne,
      unexpectedInput_eq before c body⟩
  · rintro ⟨before, c, body, hleaves, hbad, rfl⟩
    have hx := Lexeme.cut?_eq_none_iff.mpr (.inr hbad)
    rw [← unexpectedInput_eq, tokenize, tokenizeWith,
      Scan.run_of_leaves hleaves (List.cons_ne_nil c body) hx]
    rfl

/-- The scan of a text between two lexemes. It stands in front of a whole character, and the next
lexeme brings it in front of another one further on. -/
structure Scan.Between (source : String) (before rest : List Char) : Prop where
  isValid : (String.Pos.Raw.mk (bytes before)).IsValid source
  ahead : slice source (bytes before) source.utf8ByteSize = rest
  character : ∀ c body, rest = c :: body →
    (String.Pos.Raw.mk (bytes before + c.utf8Size)).IsValid source ∧
      slice source (bytes before) (bytes before + c.utf8Size) = [c]
  lexeme : ∀ x, Lexeme.cut? rest = some x →
    1 ≤ bytes x.spelling ∧
      slice source (bytes before) (bytes before + bytes x.spelling) = x.spelling ∧
      (String.Pos.Raw.mk (bytes before + bytes x.spelling)).IsValid source ∧
      Lexeme.Leaves source.toList (before ++ x.spelling) x.rest

theorem Lexeme.Leaves.between {source : String} {before rest : List Char}
    (h : Leaves source.toList before rest) : Scan.Between source before rest := by
  have hs := h.append
  refine ⟨isValid_bytes hs, slice_behind hs, ?_, fun x hx => ?_⟩
  · rintro c body rfl
    have hs' : source.toList = before ++ ([c] ++ body) := hs
    have hc : bytes [c] = c.utf8Size := by simp [bytes]
    rw [← hc]
    exact ⟨bytes_append before [c] ▸ isValid_bytes (hs'.trans (List.append_assoc _ _ _).symm),
      slice_append hs'⟩
  · obtain ⟨hne, rfl⟩ := cut?_of hx
    exact ⟨bytes_pos hne, slice_append hs,
      bytes_append before x.spelling ▸ isValid_bytes (hs.trans (List.append_assoc _ _ _).symm),
      h.snoc hx⟩

/-- A scan succeeds, or comes to a place that cannot be read. It fails exactly if lexeme by lexeme it
is led to a quote that nothing closes, to a dollar sign that no name in braces follows, or to a
character without use; its fault tells that character's place and shows what stands there. On the
way it never stands inside a character, and every lexeme has characters of its own. -/
theorem tokenize_progress (source : String) :
    ((∃ stream, tokenize source = .ok stream) ∨
        ∃ before c body, tokenize source = .error (unreadable before c body)) ∧
      (∀ e, tokenize source = .error e ↔ ∃ before c body,
        Lexeme.Leaves source.toList before (c :: body) ∧ Lexeme.Unreadable (c :: body) ∧
          e = unreadable before c body) ∧
      ∀ before rest, Lexeme.Leaves source.toList before rest →
        Scan.Between source before rest := by
  refine ⟨?_, fun e => tokenize_eq_error_iff, fun before rest h => h.between⟩
  cases h : tokenize source with
  | ok stream => exact .inl ⟨stream, rfl⟩
  | error e =>
    obtain ⟨before, c, body, -, -, rfl⟩ := tokenize_eq_error_iff.mp h
    exact .inr ⟨before, c, body, rfl⟩

/-- A quote that nothing closes, behind a name of two bytes. -/
theorem tokenize_progress_openQuote :
    Lexeme.Leaves "é'b".toList ['é'] ['\x27', 'b'] ∧
      tokenize "é'b" = .error (unreadable ['é'] '\x27' ['b']) ∧
      Scan.Between "é'b" ['é'] ['\x27', 'b'] := by
  have hx : Lexeme.cut? "é'b".toList = some ⟨.word "é" false, ['é'], ['\x27', 'b']⟩ := by cbv
  have hleaves : Lexeme.Leaves "é'b".toList ['é'] ['\x27', 'b'] := .cut hx .all
  obtain ⟨-, hfails, hbetween⟩ := tokenize_progress "é'b"
  exact ⟨hleaves, (hfails _).mpr ⟨_, _, _, hleaves, .quote (by decide) (by decide), rfl⟩,
    hbetween _ _ hleaves⟩

end Formula
