import Formula.Token

/-! The grammar of expressions, as derivations of lists of tokens, and its unfinished phrases:
what may stand before the next operand, and what an open bracket may hold. -/
namespace Formula

/-- An operator with an operand on either side. -/
def Kind.isInfixOperator (k : Kind) : Bool := k.isOperator && !k.isPrefixOperator

theorem Kind.isPrefixOperator_eq_false {k : Kind} (h : k.isInfixOperator = true) :
    k.isPrefixOperator = false := by
  simp only [isInfixOperator, Bool.and_eq_true, Bool.not_eq_true'] at h
  exact h.2

theorem Kind.isCloser_eq_false {k : Kind} (h : k.isPrefixOperator = true) :
    k.isCloser = false := by
  cases k <;> first | rfl | cases h

theorem Kind.eq_of_isOpener {k : Kind} (h : k.isOpener = true) :
    k = .parenOpen ∨ k = .arrayOpen := by
  cases k <;> first | exact .inl rfl | exact .inr rfl | cases h

theorem Kind.eq_of_isCloser {k : Kind} (h : k.isCloser = true) :
    k = .parenClose ∨ k = .arrayClose := by
  cases k <;> first | exact .inl rfl | exact .inr rfl | cases h

/-- Every other kind has a class of its own. -/
theorem Kind.isInfixOperator_or (k : Kind) :
    k.isInfixOperator = true ∨ k ∈ [number, literal, identifier, functionCall, parenOpen, arrayOpen,
      unaryPlus, unaryMinus, not, comma, pairArrow, parenClose, arrayClose] := by
  cases k <;> decide

/-- The phrases of the grammar. An expression is a term with operations behind it, an operation
is an infix operator with its right term, and a term is a primary behind prefix operators. -/
inductive Phrase
  | expr | operations | term | primary | arguments | entries | entry
  deriving DecidableEq

inductive Derives : Phrase → List Token → Prop
  | expr {as bs} (first : Derives .term as) (more : Derives .operations bs) :
      Derives .expr (as ++ bs)
  | done : Derives .operations []
  | operation {t as bs} (ht : t.kind.isInfixOperator = true) (right : Derives .term as)
      (more : Derives .operations bs) : Derives .operations (t :: (as ++ bs))
  | plain {as} (only : Derives .primary as) : Derives .term as
  | prefixed {t as} (ht : t.kind.isPrefixOperator = true) (rest : Derives .term as) :
      Derives .term (t :: as)
  | atom {t} (ht : t.kind = .number ∨ t.kind = .literal ∨ t.kind = .identifier) :
      Derives .primary [t]
  | group {o as c} (ho : o.kind = .parenOpen) (inner : Derives .expr as)
      (hc : c.kind = .parenClose) : Derives .primary (o :: (as ++ [c]))
  | emptyCall {f o c} (hf : f.kind = .functionCall) (ho : o.kind = .parenOpen)
      (hc : c.kind = .parenClose) : Derives .primary [f, o, c]
  | call {f o as c} (hf : f.kind = .functionCall) (ho : o.kind = .parenOpen)
      (inner : Derives .arguments as) (hc : c.kind = .parenClose) :
      Derives .primary (f :: o :: (as ++ [c]))
  | emptyArray {o c} (ho : o.kind = .arrayOpen) (hc : c.kind = .arrayClose) :
      Derives .primary [o, c]
  | array {o as c} (ho : o.kind = .arrayOpen) (inner : Derives .entries as)
      (hc : c.kind = .arrayClose) : Derives .primary (o :: (as ++ [c]))
  | lastArgument {as} (only : Derives .expr as) : Derives .arguments as
  | argument {as t bs} (first : Derives .expr as) (ht : t.kind = .comma)
      (more : Derives .arguments bs) : Derives .arguments (as ++ t :: bs)
  | lastEntry {as} (only : Derives .entry as) : Derives .entries as
  | entry {as t bs} (first : Derives .entry as) (ht : t.kind = .comma)
      (more : Derives .entries bs) : Derives .entries (as ++ t :: bs)
  | value {as} (only : Derives .expr as) : Derives .entry as
  | pair {as t bs} (key : Derives .expr as) (ht : t.kind = .pairArrow)
      (value : Derives .expr bs) : Derives .entry (as ++ t :: bs)

/-- The tokens spell an expression. -/
def Sentence (ts : List Token) : Prop := Derives .expr ts

/-- More tokens make an expression of these. -/
def Extendable (ts : List Token) : Prop := ∃ more, Sentence (ts ++ more)

theorem Sentence.extendable {ts : List Token} (h : Sentence ts) : Extendable ts :=
  ⟨[], by simpa using h⟩

theorem Extendable.of_append {as : List Token} (bs : List Token) (h : Extendable (as ++ bs)) :
    Extendable as := by
  obtain ⟨more, h⟩ := h
  exact ⟨bs ++ more, by simpa using h⟩

/-- An expression that still lacks its last operand. -/
inductive Dangling : List Token → Prop
  | nil : Dangling []
  | prefixed {as t} (h : Dangling as) (ht : t.kind.isPrefixOperator = true) : Dangling (as ++ [t])
  | operation {as t} (h : Derives .expr as) (ht : t.kind.isInfixOperator = true) :
      Dangling (as ++ [t])

/-- Phrases with a comma behind each. -/
inductive Heads (p : Phrase) : List Token → Prop
  | nil : Heads p []
  | snoc {as bs t} (h : Heads p as) (hb : Derives p bs) (ht : t.kind = .comma) :
      Heads p (as ++ (bs ++ [t]))

namespace Derives

theorem operations_append {as bs : List Token} (h : Derives .operations as)
    (hb : Derives .operations bs) : Derives .operations (as ++ bs) := by
  generalize hp : Phrase.operations = p at h
  induction h with
  | done => exact hb
  | @operation t as cs ht right more _ ih =>
    rw [List.cons_append, List.append_assoc]
    exact .operation ht right (ih hp)
  | _ => cases hp

/-- One more operation behind an expression. -/
theorem expr_append {as bs : List Token} {t : Token} (h : Derives .expr as)
    (ht : t.kind.isInfixOperator = true) (hb : Derives .term bs) :
    Derives .expr (as ++ t :: bs) := by
  cases h with
  | @expr as cs first more =>
    rw [List.append_assoc]
    refine .expr first (more.operations_append ?_)
    simpa using Derives.operation ht hb .done

/-- No phrase but an empty list of operations begins with a closing bracket. -/
theorem begins {p : Phrase} {as : List Token} (h : Derives p as) (hp : p ≠ .operations) :
    ∃ t ts, as = t :: ts ∧ t.kind.isCloser = false := by
  have front : ∀ {as bs : List Token}, (∃ t ts, as = t :: ts ∧ t.kind.isCloser = false) →
      ∃ t ts, as ++ bs = t :: ts ∧ t.kind.isCloser = false := by
    rintro _ bs ⟨t, ts, rfl, ht⟩
    exact ⟨t, ts ++ bs, rfl, ht⟩
  induction h with
  | expr _ _ ih _ => exact front (ih (by decide))
  | done | operation => exact absurd rfl hp
  | plain _ ih => exact ih (by decide)
  | prefixed ht _ _ => exact ⟨_, _, rfl, Kind.isCloser_eq_false ht⟩
  | @atom t ht => exact ⟨t, [], rfl, by rcases ht with ht | ht | ht <;> rw [ht] <;> rfl⟩
  | group ho | emptyArray ho | array ho => exact ⟨_, _, rfl, by rw [ho]; rfl⟩
  | emptyCall hf | call hf => exact ⟨_, _, rfl, by rw [hf]; rfl⟩
  | lastArgument _ ih | lastEntry _ ih | value _ ih => exact ih (by decide)
  | argument _ _ _ ih _ | entry _ _ _ ih _ | pair _ _ _ ih _ => exact front (ih (by decide))

theorem expr_of_term {as : List Token} (h : Derives .term as) : Derives .expr as := by
  simpa using Derives.expr h .done

end Derives

/-- The operand that an unfinished expression waits for, with its prefix operators. -/
theorem Dangling.expr {as bs : List Token} (h : Dangling as) (hb : Derives .term bs) :
    Derives .expr (as ++ bs) := by
  induction h generalizing bs with
  | nil => exact .expr_of_term hb
  | @prefixed as t _ ht ih =>
    rw [List.append_assoc]
    exact ih (.prefixed ht hb)
  | @operation as t h ht =>
    rw [List.append_assoc]
    exact h.expr_append ht hb

/-- Phrases with their commas go in front of a list of such phrases. -/
theorem Heads.append {p q : Phrase} {as bs : List Token} (h : Heads p as)
    (cons : ∀ as t bs, Derives p as → t.kind = .comma → Derives q bs → Derives q (as ++ t :: bs))
    (hb : Derives q bs) : Derives q (as ++ bs) := by
  induction h generalizing bs with
  | nil => exact hb
  | @snoc as es t _ he ht ih => simpa using ih (cons es t bs he ht hb)

theorem Heads.arguments {as bs : List Token} (h : Heads .expr as) (hb : Derives .expr bs) :
    Derives .arguments (as ++ bs) :=
  h.append (fun _ _ _ => .argument) (.lastArgument hb)

theorem Heads.entries {as bs : List Token} (h : Heads .entry as) (hb : Derives .entry bs) :
    Derives .entries (as ++ bs) :=
  h.append (fun _ _ _ => .entry) (.lastEntry hb)

end Formula
