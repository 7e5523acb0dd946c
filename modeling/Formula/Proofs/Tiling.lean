import Formula.Proofs.PlainText

/-! Tokens tile the text they come from. Main statement: in order, without overlap and with nothing
but trivia between them, each token stands at the place that its span tells and is spelled by the
text there, except for the operators that the text leaves out. -/
namespace Formula

/-- White space and comments. The text ends behind them if `last`; only then can a comment do
without a line feed. -/
inductive Trivia (last : Bool) : List Char → Prop
  | nil : Trivia last []
  | blank {c cs} (hc : Unicode.isBlank c = true) (h : Trivia last cs) : Trivia last (c :: cs)
  | comment {body cs} (hb : '\n' ∉ body) (h : Trivia last cs) :
      Trivia last ('#' :: (body ++ '\n' :: cs))
  | lastComment {body} (hl : last = true) (hb : '\n' ∉ body) : Trivia last ('#' :: body)

namespace Trivia

theorem append {last : Bool} {as bs : List Char} (h : Trivia false as) (hb : Trivia last bs) :
    Trivia last (as ++ bs) := by
  induction h with
  | nil => exact hb
  | blank hc _ ih => exact .blank hc ih
  | @comment body cs hbody _ ih =>
    have hc := Trivia.comment hbody ih
    simpa using hc
  | lastComment hl => cases hl

theorem blanks {cs : List Char} (h : ∀ c ∈ cs, Unicode.isBlank c = true) : Trivia false cs := by
  induction cs with
  | nil => exact .nil
  | cons c cs ih =>
    exact .blank (h c List.mem_cons_self) (ih fun d hd => h d (List.mem_cons_of_mem c hd))

end Trivia

/-- Trivia that a scan takes off is whole, or the text ends inside a comment. -/
theorem Lexeme.trivia?_eq_some {cs : List Char} {x : Cut} (h : trivia? cs = some x) :
    Trivia false x.spelling ∨ (x.rest = [] ∧ Trivia true x.spelling) := by
  unfold trivia? at h
  split at h
  · cases h
  · rename_i c rest
    split at h
    · split at h
      · rename_i feed behind hrest
        cases h
        obtain ⟨rfl, hfeed⟩ := takeWhile_ne hrest
        exact .inl (.comment hfeed .nil)
      · cases h
        refine .inr ⟨rfl, .lastComment rfl fun hfeed => ?_⟩
        simpa using List.mem_takeWhile_imp hfeed
    · split at h
      · rename_i hc
        cases h
        exact .inl (.blank hc (.blanks fun d hd => List.mem_takeWhile_imp hd))
      · cases h

theorem Lexeme.trivia_of_cut? {cs : List Char} {x : Cut} (hx : cut? cs = some x)
    (ht : x.lexeme = .trivia) :
    Trivia false x.spelling ∨ (x.rest = [] ∧ Trivia true x.spelling) := by
  rcases cut?_cases hx with hw | ⟨-, hx⟩
  · exact absurd ht hw.ne_trivia
  · exact trivia?_eq_some hx

/-- The text between two byte offsets. -/
def slice (source : String) (m n : Nat) : List Char :=
  (String.Pos.Raw.extract source ⟨m⟩ ⟨n⟩).toList

/-- The bytes of some characters. -/
def bytes (cs : List Char) : Nat := (String.ofList cs).utf8ByteSize

theorem bytes_append (as bs : List Char) : bytes (as ++ bs) = bytes as + bytes bs := by
  simp [bytes]

theorem bytes_pos {cs : List Char} (h : cs ≠ []) : 0 < bytes cs := by
  obtain ⟨c, cs, rfl⟩ := List.exists_cons_of_ne_nil h
  have hc := c.utf8Size_pos
  simp [bytes]
  omega

/-- Characters have bytes, wherever they stand. -/
theorem Place.isEmpty_spanOf {cs : List Char} (h : cs ≠ []) (p : Place) :
    (p.spanOf cs).isEmpty = false := by
  have hpos := bytes_pos h
  simp only [bytes] at hpos
  simp only [spanOf, Span.isEmpty, Span.length, offset_advance, beq_eq_false_iff_ne]
  omega

theorem Place.start_le_stop_spanOf (p : Place) (cs : List Char) :
    (p.spanOf cs).start ≤ (p.spanOf cs).stop := by
  simp only [spanOf, offset_advance]
  omega

theorem slice_append {source : String} {as bs cs : List Char}
    (h : source.toList = as ++ (bs ++ cs)) :
    slice source (bytes as) (bytes as + bytes bs) = bs := by
  have hs : source = String.ofList (as ++ bs ++ cs) := by
    rw [← String.ofList_toList (s := source), h, List.append_assoc]
  rw [slice, bytes, bytes, String.utf8ByteSize_ofList, String.utf8ByteSize_ofList, hs,
    String.extract_of_valid, String.toList_ofList]

theorem slice_before {source : String} {before text : List Char}
    (h : source.toList = before ++ text) : slice source 0 (bytes before) = before := by
  have hslice : slice source (bytes []) (bytes [] + bytes before) = before := slice_append h
  simpa [bytes] using hslice

theorem utf8ByteSize_eq {source : String} {before text : List Char}
    (h : source.toList = before ++ text) : source.utf8ByteSize = bytes before + bytes text := by
  rw [← bytes_append, bytes, ← h, String.ofList_toList]

theorem slice_behind {source : String} {before text : List Char}
    (h : source.toList = before ++ text) :
    slice source (bytes before) source.utf8ByteSize = text := by
  have h' : source.toList = before ++ (text ++ []) := by rwa [List.append_nil]
  rw [utf8ByteSize_eq h, slice_append h']

theorem isValid_bytes {source : String} {as bs : List Char} (h : source.toList = as ++ bs) :
    (String.Pos.Raw.mk (bytes as)).IsValid source := by
  rw [String.Pos.Raw.isValid_iff_exists_append]
  refine ⟨String.ofList as, String.ofList bs, ?_, rfl⟩
  rw [← String.ofList_append, ← h, String.ofList_toList]

/-- A span that lies between characters and tells the line and the column where it starts. -/
structure Span.Locates (source : String) (s : Span) : Prop where
  start_isValid : (String.Pos.Raw.mk s.start).IsValid source
  stop_isValid : (String.Pos.Raw.mk s.stop).IsValid source
  line_eq : s.line = 1 + (slice source 0 s.start).count '\n'
  column_eq : s.column = 1 + ((slice source 0 s.start).rtakeWhile (· != '\n')).length

theorem Span.Locates.stop_le {source : String} {s : Span} (h : s.Locates source) :
    s.stop ≤ source.utf8ByteSize := h.stop_isValid.le_rawEndPos

theorem Place.advance_origin (cs : List Char) :
    origin.advance cs =
      ⟨bytes cs, 1 + cs.count '\n', 1 + (cs.rtakeWhile (· != '\n')).length⟩ := by
  induction cs using List.reverseRecOn with
  | nil => rfl
  | append_singleton cs c ih =>
    rw [advance_append, ih, bytes_append, List.rtakeWhile_concat]
    by_cases hc : c = '\n'
    · subst hc
      simp [step, bytes, Nat.add_assoc]
      rfl
    · simp [step, bytes, hc, Nat.add_assoc]

/-- The ways in which a token can be spelled. -/
inductive Token.Spells : Token → List Char → Prop
  | symbol {k s} (hk : k.isOperand = false) : Spells (.bare k s) k.symbol.toList
  | keyword {w k s} (hk : Scan.operatorWord? (String.ofList w) = some k) : Spells (.bare k s) w
  | name {k w s} (hk : k = .identifier ∨ k = .functionCall) (hw : w ≠ [])
      (hc : ∀ c ∈ w, Lexeme.isWordCharacter c = true)
      (hl : Scan.literalWord? (String.ofList w) = none)
      (ho : Scan.operatorWord? (String.ofList w) = none) :
      Spells ⟨k, .name (String.ofList w), s⟩ w
  | explicitName {k w s} (hk : k = .identifier ∨ k = .functionCall) (hw : w ≠ [])
      (hc : '\x7d' ∉ w) :
      Spells ⟨k, .name (String.ofList w), s⟩ ('$' :: '\x7b' :: (w ++ ['\x7d']))
  | text {q w s} (hq : Lexeme.isQuote q = true) (hc : q ∉ w) :
      Spells ⟨.literal, .value (.text (String.ofList w)), s⟩ (q :: (w ++ [q]))
  | literal {w v s} (hv : Scan.literalWord? (String.ofList w) = some v) :
      Spells ⟨.literal, .value v, s⟩ w
  | number {m : Numeral.Mantissa} {x s} (hm : m.Proper)
      (hx : (Double.view x).Nearest false m.exact) :
      Spells ⟨.number, .value (.number x), s⟩ m.spelling

namespace Scan

/-- The tokens of a lexeme that is spelled `w` and stands behind the text `before`. -/
structure Share.Covers (before w : List Char) (y : Share) : Prop where
  span_eq : y.own.span = (Place.origin.advance before).spanOf w
  spells : y.own.Spells w
  inserted_eq : y.inserted = [] ∨
    ∃ kind, (kind = .times ∨ kind = .plus) ∧ y.inserted = [implied kind y.own.span]

theorem symbol_signKind (previous : Option Kind) (kind : Kind) :
    (signKind previous kind).symbol = kind.symbol := by
  unfold signKind
  split
  · split <;> rfl
  · rfl

theorem isOperand_signKind (previous : Option Kind) (kind : Kind) :
    (signKind previous kind).isOperand = kind.isOperand := by
  unfold signKind
  split
  · split <;> rfl
  · rfl

theorem Becomes.spells {previous : Option Kind} {s : Span} {w rest : List Char} {l : Lexeme}
    {y : Share} (hy : Becomes previous s rest l y) (hw : l.Spelled w) : y.own.Spells w := by
  cases hy with
  | @symbol kind =>
    cases hw with
    | symbol hk =>
      rw [← symbol_signKind previous kind]
      exact .symbol (by rw [isOperand_signKind, hk])
  | product =>
    cases hw with
    | symbol hk => exact .symbol hk
  | number =>
    cases hw with
    | @number m hd hm =>
      have hx := m.nearest_value 0
      rw [zpow_zero, mul_one] at hx
      exact .number ⟨hd, hm⟩ hx
  | text =>
    cases hw with
    | text hq hc => exact .text hq hc
  | literal h =>
    cases hw with
    | bare => exact .literal h
  | keyword _ h =>
    cases hw with
    | bare => exact .keyword h
  | name h =>
    have hkind : ∀ b : Bool, (if b then Kind.functionCall else .identifier) = .identifier ∨
        (if b then Kind.functionCall else .identifier) = .functionCall := by decide
    cases hw with
    | bare hw hc => exact .name (hkind _) hw hc (h rfl).1 (h rfl).2
    | explicit hw hc => exact .explicitName (hkind _) hw hc

theorem Becomes.covers {previous : Option Kind} {before w rest : List Char} {l : Lexeme} {y : Share}
    (hy : Becomes previous ((Place.origin.advance before).spanOf w) rest l y) (hw : l.Spelled w) :
    y.Covers before w :=
  ⟨hy.span_own, hy.spells hw, hy.inserted_eq⟩

/-- A text behind `before`, laid out in trivia and the spellings of its tokens. -/
inductive Tiling : List Char → List Char → List Share → Prop
  | done {before gap} (hg : Trivia true gap) : Tiling before gap []
  | share {before gap w rest y ys} (hg : Trivia false gap) (hw : w ≠ [])
      (hy : y.Covers (before ++ gap) w) (more : Tiling (before ++ gap ++ w) rest ys) :
      Tiling before (gap ++ (w ++ rest)) (y :: ys)

theorem Tiling.afterTrivia {before gap rest : List Char} {ys : List Share} (hg : Trivia false gap)
    (h : Tiling (before ++ gap) rest ys) : Tiling before (gap ++ rest) ys := by
  cases h with
  | done hr => exact .done (hg.append hr)
  | share hr hw hy more =>
    rw [← List.append_assoc]
    refine .share (hg.append hr) hw ?_ ?_
    · rwa [List.append_assoc] at hy
    · rwa [List.append_assoc before] at more

theorem Yields.of_nil {previous : Option Kind} {p : Place} {ys : List Share}
    (h : Yields previous p [] ys) : ys = [] := by
  cases h with
  | done => rfl
  | trivia hx => cases hx
  | lexeme hx => cases hx

theorem Yields.tiling {previous : Option Kind} {p : Place} {cs : List Char} {ys : List Share}
    (h : Yields previous p cs ys) (before : List Char) (hp : p = Place.origin.advance before) :
    Tiling before cs ys := by
  induction h generalizing before with
  | done => exact .done .nil
  | @trivia previous p cs x ys hx ht more ih =>
    subst hp
    have hcs := (Lexeme.cut?_of hx).2
    rcases Lexeme.trivia_of_cut? hx ht with hg | ⟨hrest, hg⟩
    · rw [← hcs]
      exact (ih _ (Place.advance_append _ _ _).symm).afterTrivia hg
    · -- The text ends inside a comment, so that nothing is left to scan.
      rw [hrest] at more hcs
      rw [more.of_nil, ← hcs, List.append_nil]
      exact .done hg
  | @lexeme previous p cs x y ys hx hy _ ih =>
    subst hp
    obtain ⟨hne, hcs⟩ := Lexeme.cut?_of hx
    have hw := Lexeme.cut?_spelled hx hy.ne_trivia
    have hcovers : y.Covers (before ++ []) x.spelling := by
      rw [List.append_nil]
      exact hy.covers hw
    have hmore : Tiling (before ++ [] ++ x.spelling) x.rest ys := by
      rw [List.append_nil]
      exact ih _ (Place.advance_append _ _ _).symm
    rw [← hcs]
    exact .share .nil hne hcovers hmore

/-- What the text says about the tokens of a lexeme. The own token is spelled out where it stands;
an inserted one is an operator without text right in front of it. -/
structure Share.Stands (source : String) (y : Share) : Prop where
  start_lt_stop : y.own.span.start < y.own.span.stop
  locates : y.own.span.Locates source
  spells : y.own.Spells (slice source y.own.span.start y.own.span.stop)
  inserted_eq : y.inserted = [] ∨
    ∃ kind, (kind = .times ∨ kind = .plus) ∧ y.inserted = [implied kind y.own.span]

variable {source : String} {before text w rest : List Char} {y : Share} {ys : List Share}

theorem Share.Covers.start_eq (h : y.Covers before w) : y.own.span.start = bytes before := by
  rw [h.span_eq, Place.advance_origin]
  rfl

theorem Share.Covers.stop_eq (h : y.Covers before w) : y.own.span.stop = bytes (before ++ w) := by
  rw [h.span_eq, Place.spanOf, ← Place.advance_append, Place.advance_origin (before ++ w)]

/-- A span of the text, from where the text before it ends. -/
theorem locates_spanOf (hs : source.toList = before ++ (w ++ rest)) :
    ((Place.origin.advance before).spanOf w).Locates source := by
  have hstart : (Place.origin.advance before).offset = bytes before := by
    rw [Place.advance_origin]
  have hstop : ((Place.origin.advance before).advance w).offset = bytes (before ++ w) := by
    rw [← Place.advance_append, Place.advance_origin]
  have hbefore := slice_before hs
  rw [Place.spanOf, hstart, hstop, Place.advance_origin]
  refine ⟨isValid_bytes hs, isValid_bytes (hs.trans (List.append_assoc _ _ _).symm), ?_, ?_⟩
  · rw [hbefore]
  · rw [hbefore]

theorem Share.Covers.stands (h : y.Covers before w) (hw : w ≠ [])
    (hs : source.toList = before ++ (w ++ rest)) : y.Stands source := by
  have hstop := h.stop_eq
  refine ⟨?_, h.span_eq ▸ locates_spanOf hs, ?_, h.inserted_eq⟩
  · have hpos := bytes_pos hw
    rw [h.start_eq, hstop, bytes_append]
    omega
  · rw [h.start_eq, hstop, bytes_append, slice_append hs]
    exact h.spells

theorem Tiling.stands (h : Tiling before text ys) (hs : source.toList = before ++ text) :
    ∀ y ∈ ys, y.Stands source := by
  induction h with
  | done => simp
  | share _ hw hy _ ih =>
    intro y hy'
    rcases List.mem_cons.mp hy' with rfl | hy'
    · exact hy.stands hw (hs.trans (List.append_assoc _ _ _).symm)
    · exact ih (hs.trans (by simp)) y hy'

/-- The tokens of a lexeme begin where its own token begins. -/
theorem Share.Covers.mem_tokens (h : y.Covers before w) {t : Token} (ht : t ∈ y.tokens) :
    t.span.start = bytes before ∧ (t = y.own ∨ t.span.stop = bytes before) := by
  have hstart := h.start_eq
  rcases Share.own_or_implied h.inserted_eq ht with rfl | ⟨kind, rfl⟩
  · exact ⟨hstart, .inl rfl⟩
  · exact ⟨hstart, .inr hstart⟩

theorem Tiling.le_start (h : Tiling before text ys) :
    ∀ t ∈ ys.flatMap Share.tokens, bytes before ≤ t.span.start := by
  induction h with
  | done => simp
  | share _ _ hy _ ih =>
    intro t ht
    rw [List.flatMap_cons, List.mem_append] at ht
    rcases ht with ht | ht
    · rw [(hy.mem_tokens ht).1, bytes_append]
      omega
    · have hle := ih t ht
      rw [bytes_append, bytes_append] at hle
      omega

theorem Share.Stands.isImplicit_own (h : y.Stands source) : y.own.isImplicit = false := by
  have hlt := h.start_lt_stop
  simp only [Token.isImplicit, Span.isEmpty, Span.length, beq_eq_false_iff_ne]
  omega

theorem Share.Stands.isImplicit_iff (h : y.Stands source) {t : Token} (ht : t ∈ y.tokens) :
    t.isImplicit = true ↔ t ∈ y.inserted := by
  have hinserted : ∀ u ∈ y.inserted, u.isImplicit = true := by
    rcases h.inserted_eq with hi | ⟨kind, -, hi⟩
    · simp [hi]
    · simp [hi, implied, Token.bare, Token.isImplicit]
  refine ⟨fun himplicit => ?_, hinserted t⟩
  rcases List.mem_append.mp ht with ht | ht
  · exact ht
  · rw [List.mem_singleton.mp ht, h.isImplicit_own] at himplicit
    cases himplicit

theorem Share.Stands.locates_of_mem (h : y.Stands source) {t : Token} (ht : t ∈ y.tokens) :
    t.span.Locates source := by
  have hown := h.locates
  rcases Share.own_or_implied h.inserted_eq ht with rfl | ⟨kind, rfl⟩
  · exact hown
  · exact ⟨hown.start_isValid, hown.start_isValid, hown.line_eq, hown.column_eq⟩

theorem Share.Stands.start_le_stop (h : y.Stands source) {t : Token} (ht : t ∈ y.tokens) :
    t.span.start ≤ t.span.stop := by
  rcases Share.own_or_implied h.inserted_eq ht with rfl | ⟨kind, rfl⟩
  · exact h.start_lt_stop.le
  · exact Nat.le_refl _

/-- A token without text stands right in front of the own token of its lexeme. -/
theorem split_of_isImplicit (h : ∀ y ∈ ys, y.Stands source) {as bs : List Token} {t : Token}
    (hsplit : ys.flatMap Share.tokens = as ++ t :: bs) (ht : t.isImplicit = true) :
    ∃ pre y post, ys = pre ++ y :: post ∧ as = pre.flatMap Share.tokens ∧ y.inserted = [t] ∧
      bs = y.own :: post.flatMap Share.tokens := by
  induction ys generalizing as with
  | nil => simp at hsplit
  | cons y ys ih =>
    have hy := h y List.mem_cons_self
    have hmore : ∀ {as}, ys.flatMap Share.tokens = as ++ t :: bs → _ :=
      ih fun z hz => h z (List.mem_cons_of_mem y hz)
    have hown : y.own ≠ t := by
      rintro rfl
      rw [hy.isImplicit_own] at ht
      cases ht
    rw [List.flatMap_cons, Share.tokens] at hsplit
    rcases hy.inserted_eq with hi | ⟨kind, -, hi⟩
    · rw [hi] at hsplit
      rcases as with _ | ⟨a, as⟩
      · exact absurd (List.cons.inj hsplit).1 hown
      · obtain ⟨rfl, hlater⟩ := List.cons.inj hsplit
        obtain ⟨pre, z, post, rfl, rfl, hz⟩ := hmore hlater
        exact ⟨y :: pre, z, post, rfl, by simp [Share.tokens, hi], hz⟩
    · rw [hi] at hsplit
      rcases as with _ | ⟨a, _ | ⟨b, as⟩⟩
      · obtain ⟨rfl, rfl⟩ := List.cons.inj hsplit
        exact ⟨[], y, ys, rfl, rfl, hi, rfl⟩
      · exact absurd (List.cons.inj (List.cons.inj hsplit).2).1 hown
      · obtain ⟨ha, hb⟩ := List.cons.inj hsplit
        obtain ⟨rfl, hlater⟩ := List.cons.inj hb
        obtain ⟨pre, z, post, rfl, rfl, hz⟩ := hmore hlater
        exact ⟨y :: pre, z, post, rfl, by simp [Share.tokens, hi, ← ha], hz⟩

end Scan

end Formula
