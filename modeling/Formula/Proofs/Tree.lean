import Formula.Proofs.Grammar
import Formula.Run

/-! Expressions as trees. A parser builds the tree by precedence climbing, and evaluation goes
through the tree from left to right, operands before their operator. -/
namespace Formula

namespace Kind

/-- The binding strength of an operator, zero for every other kind. -/
def level (k : Kind) : Nat := k.precedence?.getD 0

/-- How strongly an infix operator has to bind to belong to the operand on the right of `k`. -/
def rightLevel (k : Kind) : Nat := if k = .pow then k.level else k.level + 1

theorem level_pos {k : Kind} (h : k.isInfixOperator = true) : 0 < k.level := by
  cases k <;> first | decide | cases h

theorem rightLevel_pos (k : Kind) : 0 < k.rightLevel := by
  cases k <;> decide

/-- An operator goes first exactly when the next one does not belong to its right operand. -/
theorem goesBefore_eq {k : Kind} (h : k.isInfixOperator = true) (w : Kind) :
    Yard.goesBefore k w = decide (k.level < w.rightLevel) := by
  cases k <;> first | (cases w <;> rfl) | cases h

end Kind

mutual
/-- An expression. Operators, names and calls keep the place where a fault of theirs belongs. -/
inductive Tree
  | value (v : Value)
  | name (name : String) (s : Span)
  | unary (op : Kind) (s : Span) (x : Tree)
  | binary (op : Kind) (s : Span) (x y : Tree)
  | call (name : String) (s : Span) (args : List Tree)
  | array (items : List Item)

/-- An entry of an array, with the place of the token that ends it. -/
inductive Item
  | plain (x : Tree) (s : Span)
  | keyed (key x : Tree) (s : Span)
end

namespace Tree

-- An operator does what the host has for it, and what is built in only if the host has nothing.
mutual
def eval (env : Environment) : Tree → Except Fault Value
  | .value v => .ok v
  | .name n s => (env.resolve n).mapError (Fault.orSpan · s)
  | .unary op s x => do
    let v ← x.eval env
    match env.operators.get? op with
    | some handler => (handler v .null).mapError (Fault.orSpan · s)
    | none => (Operation.applyPrefix op v).mapError (Fault.orSpan · s)
  | .binary op s x y => do
    let u ← x.eval env
    let v ← y.eval env
    match env.operators.get? op with
    | some handler => (handler u v).mapError (Fault.orSpan · s)
    | none => (Operation.applyInfix op u v).mapError (Fault.orSpan · s)
  | .call n s args => do
    let vs ← evalArguments env args
    (env.call n vs).mapError (Fault.orSpan · s)
  | .array items => (evalItems env [] items).map .array

/-- The arguments of a call, from the first to the last. -/
def evalArguments (env : Environment) : List Tree → Except Fault (List Value)
  | [] => .ok []
  | x :: xs => do
    let v ← x.eval env
    let vs ← evalArguments env xs
    return v :: vs

/-- The entries of an array, stored one after the other behind those in `es`. -/
def evalItems (env : Environment) (es : Entries) : List Item → Except Fault Entries
  | [] => .ok es
  | i :: is => do
    let es ← evalItem env es i
    evalItems env es is

def evalItem (env : Environment) (es : Entries) : Item → Except Fault Entries
  | .plain x s => do
    let v ← x.eval env
    (Entries.store es none v).mapError (Fault.orSpan · s)
  | .keyed key x s => do
    let k ← key.eval env
    let v ← x.eval env
    (Entries.store es (some k) v).mapError (Fault.orSpan · s)
end

variable (env : Environment) (op : Kind) (s : Span) (x y : Tree)

theorem eval_unary : (Tree.unary op s x).eval env = x.eval env >>= fun v =>
    (env.prefixRule op v).mapError (Fault.orSpan · s) := by
  rw [eval]
  congr 1
  funext v
  rw [Environment.prefixRule]
  cases env.operators.get? op <;> rfl

theorem eval_binary : (Tree.binary op s x y).eval env = x.eval env >>= fun u =>
    y.eval env >>= fun v => (env.infixRule op u v).mapError (Fault.orSpan · s) := by
  rw [eval]
  congr 1
  funext u
  congr 1
  funext v
  rw [Environment.infixRule]
  cases env.operators.get? op <;> rfl

end Tree

namespace Climbing

/-- A piece read from the front of some tokens, and what is left of them, fewer than `n`. -/
structure Read (α : Type) (n : Nat) where
  value : α
  rest : List Token
  shorter : rest.length < n

/-- The same piece with a wider bound. -/
def Read.within {α : Type} {n k : Nat} (r : Read α n) (h : n ≤ k) : Read α k :=
  ⟨r.value, r.rest, Nat.lt_of_lt_of_le r.shorter h⟩

-- At the same tokens, arguments and entries begin with `parse`, and `parse` with `operand`.
mutual
/-- Reads an operand, and the operators behind it that bind at least as strongly as `m`, each with
its right operand. -/
def parse (m : Nat) (ts : List Token) : Option (Read Tree ts.length) := do
  let ⟨x, rest, h⟩ ← operand ts
  let r ← climb m x rest
  some (r.within h)
termination_by 3 * ts.length + 1

/-- Goes on behind the operand `x`. -/
def climb (m : Nat) (x : Tree) (ts : List Token) : Option (Read Tree (ts.length + 1)) :=
  match ts with
  | [] => some ⟨x, [], Nat.one_pos⟩
  | t :: ts =>
    if t.kind.isInfixOperator ∧ m ≤ t.kind.level then do
      let ⟨y, rest, h⟩ ← parse t.kind.rightLevel ts
      let r ← climb m (.binary t.kind t.span x y) rest
      some (r.within (Nat.le_succ_of_le (Nat.le_succ_of_le h)))
    else some ⟨x, t :: ts, Nat.lt_succ_self _⟩
termination_by 3 * ts.length

/-- Reads a prefix operator with its operand, or a primary. -/
def operand (ts : List Token) : Option (Read Tree ts.length) :=
  match ts with
  | [] => none
  | t :: ts =>
    match t.kind with
    | .number | .literal =>
      let v : Value := match t.payload with
        | .value v => v
        | _ => .null
      some ⟨.value v, ts, Nat.lt_succ_self _⟩
    | .identifier => some ⟨.name t.name t.span, ts, Nat.lt_succ_self _⟩
    | .unaryPlus | .unaryMinus | .not => do
      let ⟨x, rest, h⟩ ← parse t.kind.rightLevel ts
      some ⟨.unary t.kind t.span x, rest, Nat.lt_succ_of_lt h⟩
    | .parenOpen => do
      match ← parse 1 ts with
      | ⟨x, c :: rest, h⟩ =>
        if c.kind = .parenClose then some ⟨x, rest, Nat.lt_succ_of_lt (Nat.lt_of_succ_lt h)⟩
        else none
      | ⟨_, [], _⟩ => none
    | .functionCall => do
      let ⟨xs, rest, h⟩ ← call ts
      some ⟨.call t.name t.span xs, rest, Nat.lt_succ_of_lt h⟩
    | .arrayOpen =>
      match ts with
      | [] => none
      | c :: ts =>
        if c.kind = .arrayClose then some ⟨.array [], ts, Nat.lt_add_of_pos_right Nat.two_pos⟩
        else do
          let ⟨is, rest, h⟩ ← items (c :: ts)
          some ⟨.array is, rest, Nat.lt_succ_of_lt h⟩
    | _ => none
termination_by 3 * ts.length

/-- Reads the parentheses of a call and what is in them. -/
def call (ts : List Token) : Option (Read (List Tree) ts.length) :=
  match ts with
  | o :: c :: ts =>
    if o.kind = .parenOpen then
      if c.kind = .parenClose then some ⟨[], ts, Nat.lt_add_of_pos_right Nat.two_pos⟩
      else do
        let r ← arguments (c :: ts)
        some (r.within (Nat.le_succ _))
    else none
  | _ => none
termination_by 3 * ts.length

/-- Reads arguments and the parenthesis behind them. -/
def arguments (ts : List Token) : Option (Read (List Tree) ts.length) := do
  match ← parse 1 ts with
  | ⟨_, [], _⟩ => none
  | ⟨x, t :: rest, h⟩ =>
    have h : rest.length + 1 < ts.length := h
    if t.kind = .comma then do
      let ⟨xs, rest', h'⟩ ← arguments rest
      some ⟨x :: xs, rest', by omega⟩
    else if t.kind = .parenClose then some ⟨[x], rest, Nat.lt_of_succ_lt h⟩
    else none
termination_by 3 * ts.length + 2

/-- Reads entries and the bracket behind them. -/
def items (ts : List Token) : Option (Read (List Item) ts.length) := do
  match ← parse 1 ts with
  | ⟨_, [], _⟩ => none
  | ⟨x, t :: rest, h⟩ =>
    have h : rest.length + 1 < ts.length := h
    if t.kind = .pairArrow then do
      let ⟨y, rest', h'⟩ ← parse 1 rest
      let r ← moreItems (.keyed x y) rest'
      some (r.within (by omega))
    else do
      let r ← moreItems (.plain x) (t :: rest)
      some (r.within (Nat.le_of_lt h))
termination_by 3 * ts.length + 2

/-- Goes on where an entry ends. -/
def moreItems (item : Span → Item) (ts : List Token) : Option (Read (List Item) ts.length) :=
  match ts with
  | [] => none
  | t :: ts =>
    if t.kind = .comma then do
      let r ← items ts
      some ⟨item t.span :: r.value, r.rest, Nat.lt_succ_of_lt r.shorter⟩
    else if t.kind = .arrayClose then some ⟨[item t.span], ts, Nat.lt_succ_self _⟩
    else none
termination_by 3 * ts.length
end

/-- A piece and what is left, without the bound on its length. -/
def outcome {α : Type} {n : Nat} (r : Option (Read α n)) : Option (α × List Token) :=
  r.map fun r => (r.value, r.rest)

theorem outcome_eq_some {α : Type} {n : Nat} {r : Option (Read α n)} {x : α} {rest : List Token} :
    outcome r = some (x, rest) ↔ ∃ h, r = some ⟨x, rest, h⟩ := by
  constructor
  · intro hr
    cases r with
    | none => cases hr
    | some r =>
      cases hr
      exact ⟨r.shorter, rfl⟩
  · rintro ⟨_, rfl⟩
    rfl

theorem outcome_within {α : Type} {n k : Nat} (r : Option (Read α n)) (h : n ≤ k) :
    outcome (r.bind fun r => some (r.within h)) = outcome r := by
  cases r with
  | none => rfl
  | some r => rfl

variable {t c : Token} {ts rest more : List Token} {m : Nat}

theorem operand_value (h : t.kind = .number ∨ t.kind = .literal) :
    outcome (operand (t :: ts)) = some (.value t.value, ts) := by
  rw [operand.eq_def]
  rcases h with h | h <;> simp only [h] <;> rfl

theorem operand_name (h : t.kind = .identifier) :
    outcome (operand (t :: ts)) = some (.name t.name t.span, ts) := by
  rw [operand.eq_def]
  simp only [h]
  rfl

theorem operand_prefixOperator (h : t.kind.isPrefixOperator = true) {x : Tree}
    (hx : outcome (parse t.kind.rightLevel ts) = some (x, rest)) :
    outcome (operand (t :: ts)) = some (.unary t.kind t.span x, rest) := by
  obtain ⟨_, hx⟩ := outcome_eq_some.mp hx
  have hk : t.kind = .unaryPlus ∨ t.kind = .unaryMinus ∨ t.kind = .not := by
    cases hk : t.kind <;> simp_all [Kind.isPrefixOperator]
  rw [operand.eq_def]
  rcases hk with hk | hk | hk <;> rw [hk] at hx <;> simp [hk, hx, outcome]

theorem operand_parenOpen (h : t.kind = .parenOpen) (hc : c.kind = .parenClose) {x : Tree}
    (hx : outcome (parse 1 ts) = some (x, c :: rest)) :
    outcome (operand (t :: ts)) = some (x, rest) := by
  obtain ⟨_, hx⟩ := outcome_eq_some.mp hx
  rw [operand.eq_def]
  simp [h, hx, hc, outcome]

theorem operand_functionCall (h : t.kind = .functionCall) {xs : List Tree}
    (hx : outcome (call ts) = some (xs, rest)) :
    outcome (operand (t :: ts)) = some (.call t.name t.span xs, rest) := by
  obtain ⟨_, hx⟩ := outcome_eq_some.mp hx
  rw [operand.eq_def]
  simp [h, hx, outcome]

theorem operand_emptyArray (h : t.kind = .arrayOpen) (hc : c.kind = .arrayClose) :
    outcome (operand (t :: c :: ts)) = some (.array [], ts) := by
  rw [operand.eq_def]
  simp [h, hc, outcome]

theorem operand_array (h : t.kind = .arrayOpen) (hc : c.kind ≠ .arrayClose) {is : List Item}
    (hx : outcome (items (c :: ts)) = some (is, rest)) :
    outcome (operand (t :: c :: ts)) = some (.array is, rest) := by
  obtain ⟨_, hx⟩ := outcome_eq_some.mp hx
  rw [operand.eq_def]
  simp [h, hc, hx, outcome]

theorem call_empty (h : t.kind = .parenOpen) (hc : c.kind = .parenClose) :
    outcome (call (t :: c :: ts)) = some ([], ts) := by
  rw [call.eq_def]
  simp [h, hc, outcome]

theorem call_arguments (h : t.kind = .parenOpen) (hc : c.kind ≠ .parenClose) :
    outcome (call (t :: c :: ts)) = outcome (arguments (c :: ts)) := by
  rw [call.eq_def]
  simp only [h, hc, ↓reduceIte]
  exact outcome_within _ _

theorem arguments_last {x : Tree} (hx : outcome (parse 1 ts) = some (x, t :: rest))
    (ht : t.kind = .parenClose) : outcome (arguments ts) = some ([x], rest) := by
  obtain ⟨_, hx⟩ := outcome_eq_some.mp hx
  rw [arguments, hx]
  simp [ht, outcome]

theorem arguments_more {x : Tree} {xs : List Tree}
    (hx : outcome (parse 1 ts) = some (x, t :: rest)) (ht : t.kind = .comma)
    (hxs : outcome (arguments rest) = some (xs, more)) :
    outcome (arguments ts) = some (x :: xs, more) := by
  obtain ⟨_, hx⟩ := outcome_eq_some.mp hx
  obtain ⟨_, hxs⟩ := outcome_eq_some.mp hxs
  rw [arguments, hx]
  simp [ht, hxs, outcome]

theorem items_plain {x : Tree} (hx : outcome (parse 1 ts) = some (x, t :: rest))
    (ht : t.kind ≠ .pairArrow) :
    outcome (items ts) = outcome (moreItems (.plain x) (t :: rest)) := by
  obtain ⟨_, hx⟩ := outcome_eq_some.mp hx
  rw [items, hx]
  simp only [Option.bind_eq_bind, Option.bind_some, if_neg ht]
  exact outcome_within _ _

theorem items_keyed {k x : Tree} (hk : outcome (parse 1 ts) = some (k, t :: rest))
    (ht : t.kind = .pairArrow) (hx : outcome (parse 1 rest) = some (x, more)) :
    outcome (items ts) = outcome (moreItems (.keyed k x) more) := by
  obtain ⟨_, hk⟩ := outcome_eq_some.mp hk
  obtain ⟨_, hx⟩ := outcome_eq_some.mp hx
  rw [items, hk]
  simp only [Option.bind_eq_bind, Option.bind_some, if_pos ht, hx]
  exact outcome_within _ _

theorem moreItems_last {item : Span → Item} (ht : t.kind = .arrayClose) :
    outcome (moreItems item (t :: ts)) = some ([item t.span], ts) := by
  rw [moreItems]
  simp [ht, outcome]

theorem moreItems_more {item : Span → Item} {is : List Item} (ht : t.kind = .comma)
    (hx : outcome (items ts) = some (is, rest)) :
    outcome (moreItems item (t :: ts)) = some (item t.span :: is, rest) := by
  obtain ⟨_, hx⟩ := outcome_eq_some.mp hx
  rw [moreItems]
  simp [ht, hx, outcome]

/-- The level of an infix operator in front, zero without one. -/
def nextLevel : List Token → Nat
  | [] => 0
  | t :: _ => if t.kind.isInfixOperator then t.kind.level else 0

theorem nextLevel_infixOperator (h : t.kind.isInfixOperator = true) :
    nextLevel (t :: ts) = t.kind.level := if_pos h

theorem nextLevel_eq_zero (h : t.kind.isInfixOperator = false) : nextLevel (t :: ts) = 0 := by
  simp [nextLevel, h]

/-- An operator that does not bind strongly enough is left to somebody else. -/
theorem climb_stop (h : nextLevel ts < m) (x : Tree) :
    outcome (climb m x ts) = some (x, ts) := by
  cases ts with
  | nil =>
    rw [climb]
    rfl
  | cons t ts =>
    have hstop : ¬ (t.kind.isInfixOperator = true ∧ m ≤ t.kind.level) := by
      rintro ⟨ht, hm⟩
      rw [nextLevel_infixOperator ht] at h
      omega
    rw [climb, if_neg hstop]
    rfl

theorem climb_step (h : t.kind.isInfixOperator = true) (hm : m ≤ t.kind.level) {x y : Tree}
    (hy : outcome (parse t.kind.rightLevel ts) = some (y, rest)) :
    outcome (climb m x (t :: ts)) = outcome (climb m (.binary t.kind t.span x y) rest) := by
  obtain ⟨_, hy⟩ := outcome_eq_some.mp hy
  rw [climb, if_pos ⟨h, hm⟩, hy]
  exact outcome_within _ _

theorem parse_of_operand {x : Tree} (h : outcome (operand ts) = some (x, rest)) :
    outcome (parse m ts) = outcome (climb m x rest) := by
  obtain ⟨_, h⟩ := outcome_eq_some.mp h
  rw [parse, h]
  exact outcome_within _ _

end Climbing
end Formula
