import Formula.Proofs.Grammar
import Formula.Proofs.Stack

/-! The outline of an evaluation: which brackets are open and what has to come next, without any
value. An automaton on outlines recognizes the grammar. It stops at the first token behind which
nothing can complete an expression. -/
namespace Formula

/-- An open bracket; an array may wait for the value of a key. -/
inductive Bracket
  | group | call
  | array (keyed : Bool)
  deriving DecidableEq

/-- What comes next: an operand, or else the end of a bracket just opened; an operand; the
parenthesis of a call; something behind an operand. -/
inductive Expected
  | entry | operand | parenthesis | operator
  deriving DecidableEq

structure Outline where
  brackets : List Bracket
  expected : Expected
  deriving DecidableEq

def Bracket.isArray : Bracket → Bool
  | array _ => true
  | _ => false

namespace Outline

def start : Outline := ⟨[], .operand⟩

/-- Something that begins an operand. -/
def beginning (o next : Outline) : Except SyntaxFault Outline :=
  if o.expected = .operator then .error .unexpectedToken else .ok next

/-- Something that stands behind an operand. -/
def following (o next : Outline) : Except SyntaxFault Outline :=
  if o.expected = .operator then .ok next else .error .unexpectedToken

/-- A bracket closes, unless it is of another kind or an operand is missing. -/
def closing (o : Outline) (array : Bool) : Except SyntaxFault Outline :=
  match o.brackets with
  | [] => .error .unmatchedClose
  | b :: bs =>
    if b.isArray != array then .error .unmatchedClose
    else if o.expected = .operand then .error .unexpectedToken
    else .ok ⟨bs, .operator⟩

def step (o : Outline) (k : Kind) : Except SyntaxFault Outline :=
  if o.expected = .parenthesis then
    if k = .parenOpen then .ok ⟨.call :: o.brackets, .entry⟩ else .error .unexpectedToken
  else
    match k with
    | .number | .literal | .identifier => o.beginning ⟨o.brackets, .operator⟩
    | .functionCall => o.beginning ⟨o.brackets, .parenthesis⟩
    | .parenOpen => o.beginning ⟨.group :: o.brackets, .operand⟩
    | .arrayOpen => o.beginning ⟨.array false :: o.brackets, .entry⟩
    | .unaryPlus | .unaryMinus | .not => o.beginning ⟨o.brackets, .operand⟩
    | .comma =>
      match o.brackets with
      | .call :: bs => o.following ⟨.call :: bs, .operand⟩
      | .array _ :: bs => o.following ⟨.array false :: bs, .operand⟩
      | _ => .error .unexpectedToken
    | .pairArrow =>
      match o.brackets with
      | .array false :: bs => o.following ⟨.array true :: bs, .operand⟩
      | _ => .error .unexpectedToken
    | .parenClose => o.closing false
    | .arrayClose => o.closing true
    | _ => o.following ⟨o.brackets, .operand⟩

def steps (o : Outline) (ts : List Token) : Except SyntaxFault Outline :=
  ts.foldlM (fun o t => o.step t.kind) o

/-- An expression could end here. -/
def accepting : Outline := ⟨[], .operator⟩

theorem steps_cons (o : Outline) (t : Token) (ts : List Token) :
    o.steps (t :: ts) = o.step t.kind >>= fun o => o.steps ts := rfl

theorem steps_append (o : Outline) (as bs : List Token) :
    o.steps (as ++ bs) = o.steps as >>= fun o => o.steps bs := List.foldlM_append

theorem beginning_eq_ok {o next o' : Outline} :
    o.beginning next = .ok o' ↔ o.expected ≠ .operator ∧ next = o' := by
  by_cases h : o.expected = .operator <;> simp [beginning, h]

theorem following_eq_ok {o next o' : Outline} :
    o.following next = .ok o' ↔ o.expected = .operator ∧ next = o' := by
  by_cases h : o.expected = .operator <;> simp [following, h]

theorem closing_eq_ok {o o' : Outline} {array : Bool} :
    o.closing array = .ok o' ↔ ∃ b bs, o.brackets = b :: bs ∧ b.isArray = array ∧
      o.expected ≠ .operand ∧ ⟨bs, .operator⟩ = o' := by
  cases hb : o.brackets with
  | nil => simp [closing, hb]
  | cons b bs =>
    by_cases ha : b.isArray = array
    · by_cases he : o.expected = .operand <;> simp [closing, hb, ha, he]
    · simp [closing, hb, ha]

/-- Every way in which the automaton takes a token of kind `k`. -/
inductive Moves (o : Outline) (k : Kind) : Outline → Prop
  | parenthesis (he : o.expected = .parenthesis) (hk : k = .parenOpen) :
      Moves o k ⟨.call :: o.brackets, .entry⟩
  | atom (he : o.expected ≠ .operator) (hp : o.expected ≠ .parenthesis)
      (hk : k = .number ∨ k = .literal ∨ k = .identifier) : Moves o k ⟨o.brackets, .operator⟩
  | name (he : o.expected ≠ .operator) (hp : o.expected ≠ .parenthesis)
      (hk : k = .functionCall) : Moves o k ⟨o.brackets, .parenthesis⟩
  | group (he : o.expected ≠ .operator) (hp : o.expected ≠ .parenthesis) (hk : k = .parenOpen) :
      Moves o k ⟨.group :: o.brackets, .operand⟩
  | array (he : o.expected ≠ .operator) (hp : o.expected ≠ .parenthesis) (hk : k = .arrayOpen) :
      Moves o k ⟨.array false :: o.brackets, .entry⟩
  | prefixed (he : o.expected ≠ .operator) (hp : o.expected ≠ .parenthesis)
      (hk : k.isPrefixOperator = true) : Moves o k ⟨o.brackets, .operand⟩
  | argument {bs} (he : o.expected = .operator) (hk : k = .comma)
      (hb : o.brackets = .call :: bs) : Moves o k ⟨.call :: bs, .operand⟩
  | entry {keyed bs} (he : o.expected = .operator) (hk : k = .comma)
      (hb : o.brackets = .array keyed :: bs) : Moves o k ⟨.array false :: bs, .operand⟩
  | arrow {bs} (he : o.expected = .operator) (hk : k = .pairArrow)
      (hb : o.brackets = .array false :: bs) : Moves o k ⟨.array true :: bs, .operand⟩
  | close {b bs} (he : o.expected ≠ .operand) (hp : o.expected ≠ .parenthesis)
      (hk : k = if b.isArray then .arrayClose else .parenClose) (hb : o.brackets = b :: bs) :
      Moves o k ⟨bs, .operator⟩
  | operation (he : o.expected = .operator) (hk : k.isInfixOperator = true) :
      Moves o k ⟨o.brackets, .operand⟩

theorem moves_of_step {o o' : Outline} {k : Kind} (h : o.step k = .ok o') : o.Moves k o' := by
  by_cases hp : o.expected = .parenthesis
  · simp only [step, hp, ↓reduceIte] at h
    split at h
    · rename_i hk
      cases h
      exact .parenthesis hp hk
    · cases h
  · simp only [step, hp, ↓reduceIte] at h
    split at h
    case h_1 | h_2 | h_3 =>
      obtain ⟨he, rfl⟩ := beginning_eq_ok.mp h
      exact .atom he hp (by simp)
    case h_4 =>
      obtain ⟨he, rfl⟩ := beginning_eq_ok.mp h
      exact .name he hp rfl
    case h_5 =>
      obtain ⟨he, rfl⟩ := beginning_eq_ok.mp h
      exact .group he hp rfl
    case h_6 =>
      obtain ⟨he, rfl⟩ := beginning_eq_ok.mp h
      exact .array he hp rfl
    case h_7 | h_8 | h_9 =>
      obtain ⟨he, rfl⟩ := beginning_eq_ok.mp h
      exact .prefixed he hp rfl
    case h_10 =>
      split at h
      · rename_i hb
        obtain ⟨he, rfl⟩ := following_eq_ok.mp h
        exact .argument he rfl hb
      · rename_i hb
        obtain ⟨he, rfl⟩ := following_eq_ok.mp h
        exact .entry he rfl hb
      · cases h
    case h_11 =>
      split at h
      · rename_i hb
        obtain ⟨he, rfl⟩ := following_eq_ok.mp h
        exact .arrow he rfl hb
      · cases h
    case h_12 | h_13 =>
      obtain ⟨b, bs, hb, ha, he, rfl⟩ := closing_eq_ok.mp h
      exact .close he hp (by rw [ha]; rfl) hb
    case h_14 =>
      obtain ⟨he, rfl⟩ := following_eq_ok.mp h
      exact .operation he (k.isInfixOperator_or.resolve_right (by simp_all))

end Outline

/-- The tokens of an open bracket from its first one on, up to the last separator in it. -/
inductive Content : Bracket → List Token → Prop
  | group {o} (ho : o.kind = .parenOpen) : Content .group [o]
  | call {f o as} (hf : f.kind = .functionCall) (ho : o.kind = .parenOpen) (h : Heads .expr as) :
      Content .call (f :: o :: as)
  | array {o as} (ho : o.kind = .arrayOpen) (h : Heads .entry as) :
      Content (.array false) (o :: as)
  | keyed {o as bs t} (ho : o.kind = .arrayOpen) (h : Heads .entry as) (hb : Derives .expr bs)
      (ht : t.kind = .pairArrow) : Content (.array true) (o :: (as ++ (bs ++ [t])))

/-- The tokens up to the last bracket or separator, with these brackets open behind them. -/
inductive Context : List Bracket → List Token → Prop
  | nil : Context [] []
  | cons {b bs as ds cs} (h : Context bs as) (hd : Dangling ds) (hc : Content b cs) :
      Context (b :: bs) (as ++ (ds ++ cs))

/-- The tokens up to a bracket that has just been opened, and that may close at once. -/
inductive Opened : List Bracket → List Token → Prop
  | call {bs as ds f o} (h : Context bs as) (hd : Dangling ds) (hf : f.kind = .functionCall)
      (ho : o.kind = .parenOpen) : Opened (.call :: bs) (as ++ (ds ++ [f, o]))
  | array {bs as ds o} (h : Context bs as) (hd : Dangling ds) (ho : o.kind = .arrayOpen) :
      Opened (.array false :: bs) (as ++ (ds ++ [o]))

theorem Opened.context {bs : List Bracket} {ts : List Token} (h : Opened bs ts) :
    Context bs ts := by
  cases h with
  | call h hd hf ho => exact .cons h hd (.call hf ho .nil)
  | array h hd ho => exact .cons h hd (.array ho .nil)

/-- What the tokens read so far are, for each thing that can be expected next. -/
inductive Outline.Reads : Outline → List Token → Prop
  | entry {bs as} (h : Opened bs as) : Reads ⟨bs, .entry⟩ as
  | operand {bs as ds} (h : Context bs as) (hd : Dangling ds) : Reads ⟨bs, .operand⟩ (as ++ ds)
  | parenthesis {bs as ds f} (h : Context bs as) (hd : Dangling ds)
      (hf : f.kind = .functionCall) : Reads ⟨bs, .parenthesis⟩ (as ++ (ds ++ [f]))
  | operator {bs as es} (h : Context bs as) (he : Derives .expr es) :
      Reads ⟨bs, .operator⟩ (as ++ es)

/-- A bracket that closes behind an expression is a primary. -/
theorem Content.close {b : Bracket} {cs es : List Token} {c : Token} (h : Content b cs)
    (he : Derives .expr es) (hc : c.kind = if b.isArray then .arrayClose else .parenClose) :
    Derives .primary (cs ++ (es ++ [c])) := by
  cases h with
  | group ho => exact .group ho he hc
  | @call f o as hf ho h =>
    simpa using Derives.call hf ho (h.arguments he) hc
  | @array o as ho h =>
    simpa using Derives.array ho (h.entries (.value he)) hc
  | @keyed o as bs t ho h hb ht =>
    simpa using Derives.array ho (h.entries (.pair hb ht he)) hc

namespace Outline

variable {o o' : Outline} {ts : List Token} {t : Token}

namespace Reads

/-- Where an operand may begin, an unfinished expression stands behind the last separator. -/
theorem before (h : o.Reads ts) (ho : o.expected ≠ .operator) (hp : o.expected ≠ .parenthesis) :
    ∃ as ds, ts = as ++ ds ∧ Context o.brackets as ∧ Dangling ds := by
  cases h with
  | entry h => exact ⟨ts, [], by simp, h.context, .nil⟩
  | operand h hd => exact ⟨_, _, rfl, h, hd⟩
  | parenthesis => exact absurd rfl hp
  | operator => exact absurd rfl ho

/-- Behind an operand stands a whole expression. -/
theorem behind (h : o.Reads ts) (ho : o.expected = .operator) :
    ∃ as es, ts = as ++ es ∧ Context o.brackets as ∧ Derives .expr es := by
  cases h with
  | operator h he => exact ⟨_, _, rfl, h, he⟩
  | _ => cases ho

/-- A primary ends an unfinished expression. -/
theorem of_primary {bs : List Bracket} {as ds ps : List Token} (h : Context bs as)
    (hd : Dangling ds) (hp : Derives .primary ps) :
    Reads ⟨bs, .operator⟩ (as ++ (ds ++ ps)) :=
  .operator h (hd.expr (.plain hp))

theorem close {b : Bracket} {bs : List Bracket} (h : o.Reads ts) (hb : o.brackets = b :: bs)
    (he : o.expected ≠ .operand) (hp : o.expected ≠ .parenthesis)
    (ht : t.kind = if b.isArray then .arrayClose else .parenClose) :
    Reads ⟨bs, .operator⟩ (ts ++ [t]) := by
  cases h with
  | entry h =>
    cases h with
    | call h hd hf ho =>
      cases hb
      simpa using of_primary h hd (.emptyCall hf ho ht)
    | array h hd ho =>
      cases hb
      simpa using of_primary h hd (.emptyArray ho ht)
  | operand => exact absurd rfl he
  | parenthesis => exact absurd rfl hp
  | operator h hx =>
    cases h with
    | nil => cases hb
    | cons h hd hc =>
      cases hb
      simpa using of_primary h hd (hc.close hx ht)

/-- A comma ends an argument. -/
theorem argument {bs : List Bracket} {as es : List Token} (h : Context (.call :: bs) as)
    (he : Derives .expr es) (ht : t.kind = .comma) :
    Reads ⟨.call :: bs, .operand⟩ (as ++ es ++ [t]) := by
  cases h with
  | cons h hd hc =>
    cases hc with
    | call hf ho ha =>
      simpa using Reads.operand (Context.cons h hd (.call hf ho (ha.snoc he ht))) .nil

/-- A comma ends an entry, with or without a key. -/
theorem entry_end {bs : List Bracket} {keyed : Bool} {as es : List Token}
    (h : Context (.array keyed :: bs) as) (he : Derives .expr es) (ht : t.kind = .comma) :
    Reads ⟨.array false :: bs, .operand⟩ (as ++ es ++ [t]) := by
  cases h with
  | cons h hd hc =>
    cases hc with
    | array ho ha =>
      simpa using Reads.operand (Context.cons h hd (.array ho (ha.snoc (.value he) ht))) .nil
    | keyed ho ha hk hr =>
      simpa using Reads.operand (Context.cons h hd (.array ho (ha.snoc (.pair hk hr he) ht))) .nil

/-- An arrow ends a key. -/
theorem arrow {bs : List Bracket} {as es : List Token} (h : Context (.array false :: bs) as)
    (he : Derives .expr es) (ht : t.kind = .pairArrow) :
    Reads ⟨.array true :: bs, .operand⟩ (as ++ es ++ [t]) := by
  cases h with
  | cons h hd hc =>
    cases hc with
    | array ho ha =>
      simpa using Reads.operand (Context.cons h hd (.keyed ho ha he ht)) .nil

/-- One more token that the automaton takes. -/
theorem step (h : o.Reads ts) (hs : o.step t.kind = .ok o') : o'.Reads (ts ++ [t]) := by
  cases moves_of_step hs with
  | parenthesis he ht =>
    cases h with
    | parenthesis h hd hf => simpa using Reads.entry (.call h hd hf ht)
    | _ => cases he
  | atom he hp ht =>
    obtain ⟨as, ds, rfl, hc, hd⟩ := h.before he hp
    simpa using of_primary hc hd (.atom ht)
  | name he hp ht =>
    obtain ⟨as, ds, rfl, hc, hd⟩ := h.before he hp
    simpa using Reads.parenthesis hc hd ht
  | group he hp ht =>
    obtain ⟨as, ds, rfl, hc, hd⟩ := h.before he hp
    simpa using Reads.operand (hc.cons hd (.group ht)) .nil
  | array he hp ht =>
    obtain ⟨as, ds, rfl, hc, hd⟩ := h.before he hp
    simpa using Reads.entry (.array hc hd ht)
  | prefixed he hp ht =>
    obtain ⟨as, ds, rfl, hc, hd⟩ := h.before he hp
    simpa using Reads.operand hc (hd.prefixed ht)
  | argument he ht hb =>
    obtain ⟨as, es, rfl, hc, hx⟩ := h.behind he
    rw [hb] at hc
    exact argument hc hx ht
  | entry he ht hb =>
    obtain ⟨as, es, rfl, hc, hx⟩ := h.behind he
    rw [hb] at hc
    exact entry_end hc hx ht
  | arrow he ht hb =>
    obtain ⟨as, es, rfl, hc, hx⟩ := h.behind he
    rw [hb] at hc
    exact arrow hc hx ht
  | close he hp ht hb => exact h.close hb he hp ht
  | operation he ht =>
    obtain ⟨as, es, rfl, hc, hx⟩ := h.behind he
    simpa using Reads.operand hc (.operation hx ht)

theorem steps {bs : List Token} (h : o.Reads ts) (hs : o.steps bs = .ok o') :
    o'.Reads (ts ++ bs) := by
  induction bs generalizing o ts with
  | nil => cases hs; simpa using h
  | cons t bs ih =>
    rw [steps_cons] at hs
    obtain ⟨q, hq, hs⟩ := bind_eq_ok.mp hs
    simpa using ih (h.step hq) hs

end Reads

/-- What the automaton accepts is an expression. -/
theorem sentence_of_steps (h : start.steps ts = .ok accepting) : Sentence ts := by
  have hr : accepting.Reads ([] ++ ts) := Reads.steps (.operand .nil .nil) h
  obtain ⟨as, es, he, hc, hx⟩ := hr.behind rfl
  cases hc
  rw [List.nil_append, List.nil_append] at he
  exact he ▸ hx

/-- How the automaton takes a phrase, whatever brackets are open around it. -/
def Takes : Phrase → List Token → Prop
  | .expr, ts | .term, ts | .primary, ts =>
    ∀ bs e, e ≠ .operator → e ≠ .parenthesis → steps ⟨bs, e⟩ ts = .ok ⟨bs, .operator⟩
  | .operations, ts => ∀ bs, steps ⟨bs, .operator⟩ ts = .ok ⟨bs, .operator⟩
  | .arguments, ts =>
    ∀ bs e, e ≠ .operator → e ≠ .parenthesis →
      steps ⟨.call :: bs, e⟩ ts = .ok ⟨.call :: bs, .operator⟩
  | .entries, ts | .entry, ts =>
    ∀ bs e, e ≠ .operator → e ≠ .parenthesis →
      ∃ keyed, steps ⟨.array false :: bs, e⟩ ts = .ok ⟨.array keyed :: bs, .operator⟩

theorem step_infixOperator {k : Kind} (hk : k.isInfixOperator = true)
    (hp : o.expected ≠ .parenthesis) :
    o.step k = o.following ⟨o.brackets, .operand⟩ := by
  cases k <;> first | exact if_neg hp | cases hk

theorem step_prefixOperator {k : Kind} (hk : k.isPrefixOperator = true)
    (hp : o.expected ≠ .parenthesis) :
    o.step k = o.beginning ⟨o.brackets, .operand⟩ := by
  cases k <;> first | exact if_neg hp | cases hk

/-- What a token that begins an operand leads to. -/
theorem step_beginning {bs : List Bracket} {e : Expected} (ho : e ≠ .operator)
    (hp : e ≠ .parenthesis) {k : Kind} {next : Outline}
    (h : ((k = .number ∨ k = .literal ∨ k = .identifier) ∧ next = ⟨bs, .operator⟩) ∨
      (k.isPrefixOperator = true ∧ next = ⟨bs, .operand⟩) ∨
      (k = .functionCall ∧ next = ⟨bs, .parenthesis⟩) ∨
      (k = .parenOpen ∧ next = ⟨.group :: bs, .operand⟩) ∨
      (k = .arrayOpen ∧ next = ⟨.array false :: bs, .entry⟩)) :
    (⟨bs, e⟩ : Outline).step k = .ok next := by
  have hb : beginning ⟨bs, e⟩ next = .ok next := if_neg ho
  rw [← hb]
  rcases h with ⟨rfl | rfl | rfl, rfl⟩ | ⟨hk, rfl⟩ | ⟨rfl, rfl⟩ | ⟨rfl, rfl⟩ | ⟨rfl, rfl⟩
  case inr.inl => exact step_prefixOperator hk hp
  all_goals exact if_neg hp

theorem step_closer {b : Bracket} {bs : List Bracket} {e : Expected} (he : e ≠ .operand)
    (hp : e ≠ .parenthesis) {k : Kind} (hk : k = if b.isArray then .arrayClose else .parenClose) :
    (⟨b :: bs, e⟩ : Outline).step k = .ok ⟨bs, .operator⟩ := by
  have hc : closing ⟨b :: bs, e⟩ b.isArray = .ok ⟨bs, .operator⟩ :=
    closing_eq_ok.mpr ⟨b, bs, rfl, rfl, he, rfl⟩
  rw [← hc, hk]
  cases b <;> exact if_neg hp

theorem takes_of_derives {p : Phrase} (h : Derives p ts) : Takes p ts := by
  induction h with
  | @expr as cs _ _ ih₁ ih₂ =>
    intro bs e ho hp
    rw [steps_append, ih₁ bs e ho hp]
    exact ih₂ bs
  | done =>
    intro bs
    rfl
  | @operation t as cs ht _ _ ih₁ ih₂ =>
    intro bs
    rw [steps_cons, step_infixOperator ht (by simp), following, if_pos rfl, ok_bind, steps_append,
      ih₁ bs .operand (by decide) (by decide)]
    exact ih₂ bs
  | plain _ ih => exact ih
  | prefixed ht _ ih =>
    intro bs e ho hp
    rw [steps_cons, step_beginning ho hp (.inr (.inl ⟨ht, rfl⟩))]
    exact ih bs .operand (by decide) (by decide)
  | atom ht =>
    intro bs e ho hp
    rw [steps_cons, step_beginning ho hp (.inl ⟨ht, rfl⟩)]
    rfl
  | @group o as c h₁ _ hc ih =>
    intro bs e ho hp
    rw [steps_cons, step_beginning ho hp (.inr (.inr (.inr (.inl ⟨h₁, rfl⟩))))]
    change steps _ (as ++ [c]) = _
    rw [steps_append, ih _ .operand (by decide) (by decide)]
    exact congrArg (· >>= _) (step_closer (by decide) (by decide) hc)
  | @emptyCall f o c hf h₁ hc =>
    intro bs e ho hp
    rw [steps_cons, step_beginning ho hp (.inr (.inr (.inl ⟨hf, rfl⟩)))]
    change steps ⟨bs, .parenthesis⟩ [o, c] = _
    rw [steps_cons, h₁]
    exact congrArg (· >>= _) (step_closer (b := .call) (by decide) (by decide) hc)
  | @call f o as c hf h₁ _ hc ih =>
    intro bs e ho hp
    rw [steps_cons, step_beginning ho hp (.inr (.inr (.inl ⟨hf, rfl⟩)))]
    change steps ⟨bs, .parenthesis⟩ (o :: (as ++ [c])) = _
    rw [steps_cons, h₁]
    change steps ⟨.call :: bs, .entry⟩ (as ++ [c]) = _
    rw [steps_append, ih _ .entry (by decide) (by decide)]
    exact congrArg (· >>= _) (step_closer (b := .call) (by decide) (by decide) hc)
  | @emptyArray o c h₁ hc =>
    intro bs e ho hp
    rw [steps_cons, step_beginning ho hp (.inr (.inr (.inr (.inr ⟨h₁, rfl⟩))))]
    exact congrArg (· >>= _) (step_closer (b := .array false) (by decide) (by decide) hc)
  | @array o as c h₁ _ hc ih =>
    intro bs e ho hp
    obtain ⟨keyed, ih⟩ := ih bs .entry (by decide) (by decide)
    rw [steps_cons, step_beginning ho hp (.inr (.inr (.inr (.inr ⟨h₁, rfl⟩))))]
    change steps ⟨.array false :: bs, .entry⟩ (as ++ [c]) = _
    rw [steps_append, ih]
    exact congrArg (· >>= _) (step_closer (b := .array keyed) (by decide) (by decide) hc)
  | lastArgument _ ih =>
    intro bs e ho hp
    exact ih _ e ho hp
  | @argument as t cs _ ht _ ih₁ ih₂ =>
    intro bs e ho hp
    rw [steps_append, ih₁ _ e ho hp]
    change steps _ (t :: cs) = _
    rw [steps_cons, ht]
    exact ih₂ bs .operand (by decide) (by decide)
  | lastEntry _ ih => exact ih
  | @entry as t cs _ ht _ ih₁ ih₂ =>
    intro bs e ho hp
    obtain ⟨k₁, h₁⟩ := ih₁ bs e ho hp
    obtain ⟨k₂, h₂⟩ := ih₂ bs .operand (by decide) (by decide)
    refine ⟨k₂, ?_⟩
    rw [steps_append, h₁]
    change steps _ (t :: cs) = _
    rw [steps_cons, ht]
    exact h₂
  | value _ ih =>
    intro bs e ho hp
    exact ⟨false, ih _ e ho hp⟩
  | @pair as t cs _ ht _ ih₁ ih₂ =>
    intro bs e ho hp
    refine ⟨true, ?_⟩
    rw [steps_append, ih₁ _ e ho hp]
    change steps _ (t :: cs) = _
    rw [steps_cons, ht]
    exact ih₂ _ .operand (by decide) (by decide)

/-- The automaton accepts exactly the expressions. -/
theorem sentence_iff : Sentence ts ↔ start.steps ts = .ok accepting :=
  ⟨fun h => takes_of_derives h [] .operand (by decide) (by decide), sentence_of_steps⟩

/-- Closing the open brackets one after the other ends an expression. -/
theorem closers (bs : List Bracket) : ∃ ts, steps ⟨bs, .operator⟩ ts = .ok accepting := by
  induction bs with
  | nil => exact ⟨[], rfl⟩
  | cons b bs ih =>
    obtain ⟨ts, h⟩ := ih
    let c := Token.bare (if b.isArray then .arrayClose else .parenClose) default
    refine ⟨c :: ts, ?_⟩
    rw [steps_cons, step_closer (k := c.kind) (by decide) (by decide) rfl]
    exact h

/-- From wherever the automaton comes to, it can accept. -/
theorem completes (o : Outline) : ∃ ts, o.steps ts = .ok accepting := by
  obtain ⟨bs, e⟩ := o
  have operand : ∀ bs e, e ≠ .operator → e ≠ .parenthesis →
      ∃ ts, steps ⟨bs, e⟩ ts = .ok accepting := by
    intro bs e ho hp
    obtain ⟨ts, h⟩ := closers bs
    let x := Token.bare .literal default
    refine ⟨x :: ts, ?_⟩
    rw [steps_cons, step_beginning (k := x.kind) ho hp (.inl ⟨.inr (.inl rfl), rfl⟩)]
    exact h
  cases e with
  | operator => exact closers bs
  | parenthesis =>
    obtain ⟨ts, h⟩ := operand (.call :: bs) .entry (by decide) (by decide)
    exact ⟨Token.bare .parenOpen default :: ts, h⟩
  | entry => exact operand bs .entry (by decide) (by decide)
  | operand => exact operand bs .operand (by decide) (by decide)

/-- The automaton goes on exactly as long as an expression is possible. -/
theorem extendable_iff : Extendable ts ↔ ∃ o, start.steps ts = .ok o := by
  constructor
  · rintro ⟨more, h⟩
    rw [sentence_iff, steps_append] at h
    obtain ⟨o, ho, -⟩ := bind_eq_ok.mp h
    exact ⟨o, ho⟩
  · rintro ⟨o, ho⟩
    obtain ⟨more, h⟩ := completes o
    refine ⟨more, ?_⟩
    rw [sentence_iff, steps_append, ho]
    exact h

/-- A token that the automaton does not take leaves no expression possible. -/
theorem not_extendable {f : SyntaxFault} (h : start.steps ts = .ok o)
    (hs : o.step t.kind = .error f) : ¬ Extendable (ts ++ [t]) := by
  rw [extendable_iff, steps_append, h]
  rintro ⟨o', ho⟩
  change steps o [t] = _ at ho
  rw [steps_cons, hs] at ho
  cases ho

end Outline
end Formula
