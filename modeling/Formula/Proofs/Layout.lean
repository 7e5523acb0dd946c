import Formula.Proofs.Neighbours

/-! What stands between the lexemes of a text does not matter. A text is laid out in trivia and
lexemes, and the tokens depend on the lexemes alone. Main statement: trivia in front of a token
changes nothing but places. -/
namespace Formula

namespace Lexeme

theorem ne_of_isBlank {c d : Char} (hc : Unicode.isBlank c = true)
    (hd : Unicode.isBlank d = false) : c ≠ d := by
  rintro rfl
  rw [hc] at hd
  cases hd

theorem plain_of_isBlank {c : Char} (hc : Unicode.isBlank c = true) :
    singleSymbol? c = none ∧ isWordCharacter c = false ∧ isQuote c = false := by
  refine ⟨?_, ?_, ?_⟩
  · unfold singleSymbol?
    split <;> first | rfl | exact absurd rfl (ne_of_isBlank hc (by decide))
  · simp [isWordCharacter, Unicode.isAlphanumeric_of_isBlank hc,
      ne_of_isBlank hc (show Unicode.isBlank '.' = false by decide),
      ne_of_isBlank hc (show Unicode.isBlank '_' = false by decide)]
  · simp [isQuote, ne_of_isBlank hc (show Unicode.isBlank '"' = false by decide),
      ne_of_isBlank hc (show Unicode.isBlank '\x27' = false by decide)]

theorem separates_of_isBlank {c : Char} (hc : Unicode.isBlank c = true) : Separates c :=
  ⟨(plain_of_isBlank hc).2.1, ne_of_isBlank hc (by decide), ne_of_isBlank hc (by decide),
    ne_of_isBlank hc (by decide)⟩

theorem cut?_blank {c : Char} (hc : Unicode.isBlank c = true) (cs : List Char) :
    cut? (c :: cs) =
      some ⟨.trivia, c :: cs.takeWhile Unicode.isBlank, cs.dropWhile Unicode.isBlank⟩ := by
  obtain ⟨hs, hw, hq⟩ := plain_of_isBlank hc
  rw [cut?_cons_eq hs hw (ne_of_isBlank hc (by decide))]
  simp [text?, hq, trivia?, ne_of_isBlank hc (show Unicode.isBlank '#' = false by decide), hc]

theorem cut?_hash (cs : List Char) : cut? ('#' :: cs) = trivia? ('#' :: cs) := by
  rw [cut?_cons_eq rfl (by decide +kernel) (by decide)]
  simp [text?, isQuote]

theorem cut?_comment {body : List Char} (hb : '\n' ∉ body) (cs : List Char) :
    cut? ('#' :: (body ++ '\n' :: cs)) = some ⟨.trivia, '#' :: (body ++ ['\n']), cs⟩ := by
  obtain ⟨htake, hdrop⟩ := takeWhile_ne_append hb cs
  rw [cut?_hash]
  simp [trivia?, htake, hdrop]

theorem cut?_lastComment {body : List Char} (hb : '\n' ∉ body) :
    cut? ('#' :: body) = some ⟨.trivia, '#' :: body, []⟩ := by
  have hfeed : ∀ c ∈ body, (c != '\n') = true := by
    intro c hc
    simpa using ne_of_mem_of_not_mem hc hb
  have htake : body.takeWhile (· != '\n') = body := by simpa using hfeed
  have hdrop : body.dropWhile (· != '\n') = [] := by simpa using hfeed
  rw [cut?_hash]
  simp [trivia?, htake, hdrop]

end Lexeme

namespace Scan

variable {previous : Option Kind} {p : Place} {cs rest : List Char} {ys : List Share}

/-- A blank more in front of a text. -/
theorem Yields.blank {c : Char} (hc : Unicode.isBlank c = true)
    (h : Yields previous (p.step c) cs ys) : Yields previous p (c :: cs) ys := by
  refine .trivia (Lexeme.cut?_blank hc cs) rfl ?_
  cases cs with
  | nil => exact h
  | cons d cs =>
    cases hd : Unicode.isBlank d with
    | false => simpa [hd] using h
    | true =>
      -- The run of blanks that the text begins with is taken off at once.
      have hx := Lexeme.cut?_blank hd cs
      rw [List.takeWhile_cons, List.dropWhile_cons, hd]
      cases h with
      | trivia hx' _ more =>
        cases hx.symm.trans hx'
        exact more
      | lexeme hx' hy =>
        cases hx.symm.trans hx'
        cases hy

theorem Yields.afterTrivia {last : Bool} {gap : List Char} (hg : Trivia last gap)
    (hrest : last = true → rest = []) (h : Yields previous (p.advance gap) rest ys) :
    Yields previous p (gap ++ rest) ys := by
  induction hg generalizing p with
  | nil => exact h
  | blank hc _ ih => exact .blank hc (ih h)
  | @comment body cs hb _ ih =>
    have hcut := Lexeme.cut?_comment hb (cs ++ rest)
    rw [List.cons_append, List.append_assoc, List.cons_append]
    refine .trivia hcut rfl (ih ?_)
    rw [← Place.advance_append]
    simpa using h
  | @lastComment body hl hb =>
    rw [hrest hl, List.append_nil]
    rw [hrest hl] at h
    exact .trivia (Lexeme.cut?_lastComment hb) rfl h

/-- A text laid out in trivia and lexemes, and what the lexemes become. -/
inductive Laid : Option Kind → Place → List Char → List Share → Prop
  | done {previous p gap} (hg : Trivia true gap) : Laid previous p gap []
  | lexeme {previous p gap cs x y ys} (hg : Trivia false gap) (hx : Lexeme.cut? cs = some x)
      (hy : Becomes previous ((p.advance gap).spanOf x.spelling) x.rest x.lexeme y)
      (more : Laid (some y.own.kind) ((p.advance gap).advance x.spelling) x.rest ys) :
      Laid previous p (gap ++ cs) (y :: ys)

theorem Laid.first {x : Lexeme.Cut} {y : Share} (hx : Lexeme.cut? cs = some x)
    (hy : Becomes previous (p.spanOf x.spelling) x.rest x.lexeme y)
    (more : Laid (some y.own.kind) (p.advance x.spelling) x.rest ys) :
    Laid previous p cs (y :: ys) := .lexeme .nil hx hy more

theorem Laid.afterTrivia {gap : List Char} (hg : Trivia false gap)
    (h : Laid previous (p.advance gap) cs ys) : Laid previous p (gap ++ cs) ys := by
  cases h with
  | done hr => exact .done (hg.append hr)
  | lexeme hr hx hy more =>
    rw [← List.append_assoc]
    refine .lexeme (hg.append hr) hx ?_ ?_
    · rwa [Place.advance_append]
    · rwa [Place.advance_append]

theorem laid_of_yields (h : Yields previous p cs ys) : Laid previous p cs ys := by
  induction h with
  | done => exact .done .nil
  | @trivia previous p cs x ys hx ht more ih =>
    have hcs := (Lexeme.cut?_of hx).2
    rcases Lexeme.trivia_of_cut? hx ht with hg | ⟨hrest, hg⟩
    · rw [← hcs]
      exact ih.afterTrivia hg
    · rw [hrest] at more hcs
      rw [more.of_nil, ← hcs, List.append_nil]
      exact .done hg
  | lexeme hx hy _ ih => exact .first hx hy ih

theorem yields_of_laid (h : Laid previous p cs ys) : Yields previous p cs ys := by
  induction h with
  | @done previous p gap hg =>
    rw [← List.append_nil gap]
    exact .afterTrivia hg (fun _ => rfl) .done
  | lexeme hg hx hy _ ih => exact .afterTrivia hg (by rintro ⟨⟩) (.lexeme hx hy ih)

/-- A scan finds what a text is laid out in. -/
theorem yields_iff_laid : Yields previous p cs ys ↔ Laid previous p cs ys :=
  ⟨laid_of_yields, yields_of_laid⟩

/-- The same share at another place. -/
def Share.at (y : Share) (s : Span) : Share :=
  ⟨y.inserted.map fun t => implied t.kind s, { y.own with span := s }⟩

variable {s s' : Span} {l : Lexeme} {y : Share}

theorem Becomes.at (hy : Becomes previous s rest l y) (s' : Span) :
    Becomes previous s' rest l (y.at s') := by
  cases hy with
  | symbol h => exact .symbol h
  | product h => exact .product h
  | @number x =>
    have hn : Becomes previous s' rest (.number x) _ := .number
    cases he : endsFactor previous <;> simpa [Share.at, he, implied, Token.bare] using hn
  | text => exact .text
  | literal h => exact .literal h
  | keyword hl h => exact .keyword hl h
  | @name w explicit h =>
    have hn : Becomes previous s' rest (.word w explicit) _ := .name h
    by_cases he : previous = some .identifier <;>
      simpa [Share.at, he, implied, Token.bare] using hn

end Scan

/-- What a token says, wherever it stands, and whether the text spells it. -/
def Token.reading (t : Token) : Kind × Payload × Bool := (t.kind, t.payload, t.isImplicit)

namespace Scan

variable {previous : Option Kind} {p : Place} {cs rest : List Char} {y : Share} {ys : List Share}
  {s s' : Span} {l : Lexeme}

theorem Becomes.reading_at (hy : Becomes previous s rest l y) (hs : s'.isEmpty = s.isEmpty) :
    (y.at s').tokens.map Token.reading = y.tokens.map Token.reading := by
  have hown : Token.reading { y.own with span := s' } = y.own.reading := by
    simp [Token.reading, Token.isImplicit, hy.span_own, hs]
  simp only [Share.tokens, Share.at, List.map_append, List.map_map, List.map_cons, List.map_nil,
    hown]
  rcases hy.inserted_eq with hi | ⟨kind, -, hi⟩ <;>
    simp [hi, implied, Token.bare, Token.reading, Token.isImplicit]

/-- A text says the same wherever it stands. -/
theorem Laid.move (h : Laid previous p cs ys) (q : Place) :
    ∃ zs, Laid previous q cs zs ∧
      (zs.flatMap Share.tokens).map Token.reading =
        (ys.flatMap Share.tokens).map Token.reading := by
  induction h generalizing q with
  | done hg => exact ⟨[], .done hg, rfl⟩
  | @lexeme previous p gap cs x y ys hg hx hy _ ih =>
    obtain ⟨zs, hzs, hreading⟩ := ih ((q.advance gap).advance x.spelling)
    refine ⟨_, .lexeme hg hx (hy.at _) hzs, ?_⟩
    have hne := (Lexeme.cut?_of hx).1
    rw [List.flatMap_cons, List.flatMap_cons, List.map_append, List.map_append, hreading,
      hy.reading_at]
    rw [Place.isEmpty_spanOf hne, Place.isEmpty_spanOf hne]

/-- Behind a token of kind `previous` the second text can stand for the first one: neither the
lexeme in front nor what it becomes is changed. -/
structure Alike (previous : Option Kind) (text text' : List Char) : Prop where
  head : Lexeme.MayFollow text text'
  call : previous = some .identifier ∨ previous = some .functionCall →
    opensCall false text' = opensCall false text

theorem Becomes.congr {rest' : List Char} (hy : Becomes previous s rest l y)
    (ha : Alike (some y.own.kind) rest rest') : Becomes previous s rest' l y := by
  cases hy with
  | symbol h => exact .symbol h
  | product h => exact .product h
  | number => exact .number
  | text => exact .text
  | literal h => exact .literal h
  | keyword hl h => exact .keyword hl h
  | @name w explicit hw =>
    have hcall : opensCall false rest' = opensCall false rest := by
      apply ha.call
      cases opensCall false rest <;> simp
    rw [← hcall]
    exact .name hw

theorem Alike.afterTrivia {gap text text' : List Char} (hg : Trivia false gap)
    (h : Alike previous text text') : Alike previous (gap ++ text) (gap ++ text') := by
  refine ⟨?_, fun hp => ?_⟩
  · cases gap with
    | nil => exact h.head
    | cons c gap => exact fun d hd => .inl hd
  · rw [opensCall_append hg (by rintro ⟨⟩), opensCall_append hg (by rintro ⟨⟩), h.call hp]

/-- What stands behind a lexeme does not matter to what stands in front of it. -/
theorem alike_lexeme {x : Lexeme.Cut} (hx : Lexeme.cut? cs = some x) (ht : x.lexeme ≠ .trivia)
    (rest' : List Char) : Alike previous cs (x.spelling ++ rest') := by
  obtain ⟨c, tl, hw, hhash, hb, -⟩ := (Lexeme.cut?_spelled hx ht).head
  rw [← (Lexeme.cut?_of hx).2, hw]
  refine ⟨fun d hd => .inl hd, fun _ => ?_⟩
  simp [opensCall, hhash, hb]

/-- The text begins with a lexeme that becomes `y`, and then is laid out. -/
inductive Heads (previous : Option Kind) (p : Place) (text : List Char) (y : Share)
    (ys : List Share) : Prop
  | intro {x} (hx : Lexeme.cut? text = some x)
      (hy : Becomes previous (p.spanOf x.spelling) x.rest x.lexeme y)
      (more : Laid (some y.own.kind) (p.advance x.spelling) x.rest ys)

/-- The kind of the last of some tokens, if there are any, and else `previous`. -/
def lastKind (previous : Option Kind) : List Share → Option Kind
  | [] => previous
  | a :: as => lastKind (some a.own.kind) as

/-- A layout can be cut in front of any lexeme, and what stands there can be put in the place of
the rest, provided that the lexeme in front does not see the difference. -/
theorem Laid.split {as : List Share} (h : Laid previous p cs (as ++ y :: ys)) :
    ∃ before text, cs = before ++ text ∧ Heads (lastKind previous as) (p.advance before) text y ys ∧
      ∀ text', Alike (lastKind previous as) text text' →
        Alike previous (before ++ text) (before ++ text') ∧
        ∀ zs, Laid (lastKind previous as) (p.advance before) text' zs →
          Laid previous p (before ++ text') (as ++ zs) := by
  induction as generalizing previous p cs with
  | nil =>
    cases h with
    | @lexeme _ _ gap text _ _ _ hg hx hy more =>
      refine ⟨gap, text, rfl, ⟨hx, hy, more⟩, fun text' ha => ⟨ha.afterTrivia hg, fun zs hzs => ?_⟩⟩
      exact hzs.afterTrivia hg
  | cons a as ih =>
    cases h with
    | @lexeme _ _ gap cs x _ _ hg hx hy more =>
      obtain ⟨before, text, hrest, hheads, hreplace⟩ := ih more
      have hcs := (Lexeme.cut?_of hx).2
      refine ⟨gap ++ (x.spelling ++ before), text, ?_, ?_, fun text' ha => ?_⟩
      · simp [← hcs, hrest]
      · rwa [Place.advance_append, Place.advance_append]
      · obtain ⟨halike, hlaid⟩ := hreplace text' ha
        have hx' : Lexeme.cut? (x.spelling ++ (before ++ text')) = some { x with rest := _ } :=
          Lexeme.cut?_congr hx hy.ne_trivia (hrest ▸ halike.head)
        refine ⟨?_, fun zs hzs => ?_⟩
        · have hlexeme : Alike previous cs (x.spelling ++ (before ++ text')) :=
            alike_lexeme hx hy.ne_trivia _
          rw [← hcs, hrest] at hlexeme
          simpa only [List.append_assoc] using hlexeme.afterTrivia hg
        · rw [Place.advance_append, Place.advance_append] at hzs
          have hlater := hlaid zs hzs
          simpa only [List.append_assoc, List.cons_append] using
            Laid.lexeme hg hx' (hy.congr (hrest ▸ halike)) hlater

/-- A token with text is what a lexeme becomes, and so a layout can be cut in front of it. -/
theorem Yields.own_of_mem {source : String} {ys : List Share} {t : Token}
    (h : Yields none .origin source.toList ys) (ht : t ∈ ys.flatMap Share.tokens)
    (hi : t.isImplicit = false) : ∃ as y bs, ys = as ++ y :: bs ∧ t = y.own := by
  obtain ⟨y, hy, ht⟩ := List.mem_flatMap.mp ht
  obtain ⟨as, bs, hys⟩ := List.append_of_mem hy
  refine ⟨as, y, bs, hys, ?_⟩
  rcases List.mem_append.mp ht with hm | hown
  · have hstands : y.Stands source := (h.tiling [] rfl).stands rfl y hy
    rw [(hstands.isImplicit_iff ht).mpr hm] at hi
    cases hi
  · exact List.mem_singleton.mp hown

theorem Heads.start_eq {before text : List Char}
    (h : Heads previous (Place.origin.advance before) text y ys) :
    y.own.span.start = bytes before := by
  obtain ⟨hx, hy, more⟩ := h
  rw [hy.span_own, Place.advance_origin]
  rfl

theorem separates_hash : Lexeme.Separates '#' := by
  refine ⟨?_, ?_, ?_, ?_⟩ <;> decide +kernel

/-- Trivia in front of a lexeme cannot be seen from the lexeme before. -/
theorem alike_trivia {gap text : List Char} (hg : Trivia false gap) :
    Alike previous text (gap ++ text) := by
  refine ⟨?_, fun _ => opensCall_append hg (by rintro ⟨⟩)⟩
  cases hg with
  | nil => exact fun d hd => .inl hd
  | blank hc =>
    rintro d ⟨⟩
    exact .inr (Lexeme.separates_of_isBlank hc)
  | comment =>
    rintro d ⟨⟩
    exact .inr separates_hash
  | lastComment hl => cases hl

/-- Trivia in front of a lexeme of a layout changes places only. -/
theorem Laid.insertTrivia {as : List Share} {gap : List Char}
    (h : Laid previous p cs (as ++ y :: ys)) (hg : Trivia false gap) :
    ∃ before text zs, cs = before ++ text ∧
      Heads (lastKind previous as) (p.advance before) text y ys ∧
      Laid previous p (before ++ (gap ++ text)) zs ∧
      (zs.flatMap Share.tokens).map Token.reading =
        ((as ++ y :: ys).flatMap Share.tokens).map Token.reading := by
  obtain ⟨before, text, hcs, hheads, hreplace⟩ := h.split
  obtain ⟨-, hlaid⟩ := hreplace (gap ++ text) (alike_trivia hg)
  have hbehind : Laid (lastKind previous as) (p.advance before) text (y :: ys) := by
    obtain ⟨hx, hy, more⟩ := hheads
    exact .first hx hy more
  obtain ⟨zs, hzs, hreading⟩ := hbehind.move ((p.advance before).advance gap)
  refine ⟨before, text, as ++ zs, hcs, hheads, hlaid zs (hzs.afterTrivia hg), ?_⟩
  rw [List.flatMap_append, List.map_append, hreading, List.flatMap_append, List.map_append]

end Scan

/-- A text with some characters put in at a byte offset. -/
def insertAt (source : String) (n : Nat) (cs : List Char) : String :=
  String.ofList (slice source 0 n ++ (cs ++ slice source n source.utf8ByteSize))

theorem toList_insertAt {source : String} {before text : List Char}
    (hs : source.toList = before ++ text) (cs : List Char) :
    (insertAt source (bytes before) cs).toList = before ++ (cs ++ text) := by
  rw [insertAt, String.toList_ofList, slice_before hs, slice_behind hs]

/-- Between lexemes, layout is irrelevant: with white space and comments put in front of a token,
a text has the same tokens, at other places. -/
theorem tokenize_insertTrivia {source : String} {stream : TokenStream} {t : Token}
    {gap : List Char} (h : tokenize source = .ok stream) (ht : t ∈ stream.tokens)
    (hi : t.isImplicit = false) (hg : Trivia false gap) :
    ∃ stream', tokenize (insertAt source t.span.start gap) = .ok stream' ∧
      stream'.tokens.map Token.reading = stream.tokens.map Token.reading := by
  obtain ⟨ys, hys, rfl⟩ := tokenize_eq_ok.mp h
  obtain ⟨as, y, bs, rfl, rfl⟩ := hys.own_of_mem ht hi
  obtain ⟨before, text, zs, hs, hheads, hzs, hreading⟩ :=
    (Scan.laid_of_yields hys).insertTrivia hg
  refine ⟨.ofTokens (zs.flatMap Scan.Share.tokens), tokenize_eq_ok.mpr ⟨zs, ?_, rfl⟩, hreading⟩
  rw [hheads.start_eq, toList_insertAt hs]
  exact Scan.yields_of_laid hzs

/-- A call, with the name of its argument in more bytes than characters. -/
def callTokens : List Token :=
  [⟨.functionCall, .name "f", ⟨0, 1, 1, 1⟩⟩, .bare .parenOpen ⟨1, 2, 1, 2⟩,
    ⟨.identifier, .name "é", ⟨2, 4, 1, 3⟩⟩, .bare .parenClose ⟨4, 5, 1, 4⟩]

theorem tokenize_insertTrivia_call :
    tokenize "f(é)" = .ok (.ofTokens callTokens) ∧
      insertAt "f(é)" 1 [' ', '#', '(', '\n'] = "f #(\n(é)" ∧
      Trivia false [' ', '#', '(', '\n'] ∧
      ∃ stream', tokenize (insertAt "f(é)" 1 [' ', '#', '(', '\n']) = .ok stream' ∧
        stream'.tokens.map Token.reading = callTokens.map Token.reading := by
  have h : tokenize "f(é)" = .ok (.ofTokens callTokens) := by cbv
  have ht : .bare .parenOpen ⟨1, 2, 1, 2⟩ ∈ (TokenStream.ofTokens callTokens).tokens :=
    .tail _ (.head _)
  have hcomment : Trivia false ('#' :: (['('] ++ '\n' :: [])) := .comment (by decide) .nil
  have hg : Trivia false [' ', '#', '(', '\n'] := .blank (by decide) hcomment
  have hnew : insertAt "f(é)" 1 [' ', '#', '(', '\n'] = "f #(\n(é)" := rfl
  have hstream := tokenize_insertTrivia h ht rfl hg
  exact ⟨h, hnew, hg, hstream⟩

end Formula
