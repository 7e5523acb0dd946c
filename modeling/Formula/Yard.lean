import Formula.Environment
import Formula.Token

/-!
The three stacks of an evaluation: operators that wait for their operands, values, and the
brackets that are open. All stacks are lists with the top first. Operators are applied as soon
as binding strength allows, and a marker keeps the operators of a bracket apart from those
around it.
-/
namespace Formula

/-- An entry of the operator stack; markers lie under the operators of open brackets. -/
inductive Stacked
  | operator (kind : Kind) (span : Span)
  | marker
  deriving DecidableEq

/-- What an open bracket has collected: nothing, the arguments of a call, or the entries of an
array and the key of the next one. -/
inductive Collected
  | group
  | call (name : String) (args : List Value)
  | array (entries : Entries) (key : Option Value)

/-- An open bracket: what it has collected, the height of the value stack when it was opened,
and the token that opened it. -/
structure Frame where
  collected : Collected
  base : Nat
  opened : Span

namespace Collected

def isGroup : Collected → Bool
  | group => true
  | _ => false

def isArray : Collected → Bool
  | array .. => true
  | _ => false

/-- Nothing has been collected so far. -/
def isFresh : Collected → Bool
  | group => true
  | call _ args => args.isEmpty
  | array es key => es.isEmpty && key.isNone

end Collected

structure Yard where
  operators : List Stacked
  values : List Value
  frames : List Frame
  /-- Whether the next token has to begin an operand. -/
  expectsOperand : Bool

namespace Fault

/-- The value stack holds `found` values where it should hold one. -/
def unbalanced (found : Nat) (s : Span) : Fault :=
  (ofSyntax .unbalancedExpression
    ("expected a single value here, found " ++ toString found)).withSpan s

end Fault

namespace Yard

def empty : Yard := ⟨[], [], [], true⟩

/-- The operands of an operator lie above this height of the value stack. -/
def floor (y : Yard) : Nat := (y.frames.head?.map Frame.base).getD 0

/-- Whether a stack is at least this high. -/
def reaches {α : Type} : Nat → List α → Bool
  | 0, _ => true
  | _ + 1, [] => false
  | n + 1, _ :: vs => reaches n vs

theorem reaches_iff {α : Type} {n : Nat} {vs : List α} : reaches n vs = true ↔ n ≤ vs.length := by
  induction n generalizing vs with
  | zero => simp [reaches]
  | succ n ih => cases vs <;> simp [reaches, ih]

/-- Takes the top of a value stack, if that lies above the floor. -/
def popOperand (floor : Nat) (s : Span) : List Value → Except Fault (Value × List Value)
  | [] => .error (.unbalanced 0 s)
  | v :: vs => if reaches floor vs then .ok (v, vs) else .error (.unbalanced 0 s)

/-- An operation that failed, and the stacks as it left them. -/
structure Halted where
  fault : Fault
  operators : List Stacked
  values : List Value

/-- Applies an operator, already taken off the stack, to the values on top. When it fails, the
operands that it has taken are gone. -/
def applyOperator (env : Environment) (floor : Nat) (op : Kind) (s : Span) (vs : List Value) :
    Except (Fault × List Value) (List Value) :=
  match popOperand floor s vs with
  | .error e => .error (e, vs)
  | .ok (v, ws) =>
    if op.isPrefixOperator then
      match env.prefixRule op v with
      | .ok r => .ok (r :: ws)
      | .error e => .error (e.orSpan s, ws)
    else
      match popOperand floor s ws with
      | .error e => .error (e, ws)
      | .ok (u, us) =>
        match env.infixRule op u v with
        | .ok r => .ok (r :: us)
        | .error e => .error (e.orSpan s, us)

/-- Applies the operators on top of the stack as long as they are `ready`. -/
def applyWhile (env : Environment) (floor : Nat) (ready : Kind → Bool) :
    List Stacked → List Value → Except Halted (List Stacked × List Value)
  | .operator op s :: ops, vs =>
    if ready op then
      match applyOperator env floor op s vs with
      | .ok vs => applyWhile env floor ready ops vs
      | .error (e, vs) => .error ⟨e, ops, vs⟩
    else .ok (.operator op s :: ops, vs)
  | ops, vs => .ok (ops, vs)

/-- Applies the operators of the innermost bracket. Its marker stays. -/
def reduce (env : Environment) (y : Yard) : Except Halted Yard :=
  (applyWhile env y.floor (fun _ => true) y.operators y.values).map fun (ops, vs) =>
    { y with operators := ops, values := vs }

/-- A waiting operator goes first when it binds more tightly than the next one, or just as
tightly and the next one associates to the left. -/
def goesBefore (next waiting : Kind) : Bool :=
  let p := next.precedence?.getD 0
  let q := waiting.precedence?.getD 0
  decide (p < q) || (p == q && !next.isRightAssociative)

/-- Puts an infix operator on the stack, after the waiting ones that go before it. -/
def pushBinary (env : Environment) (op : Kind) (s : Span) (y : Yard) : Except Halted Yard :=
  (applyWhile env y.floor (goesBefore op) y.operators y.values).map fun (ops, vs) =>
    { y with operators := .operator op s :: ops, values := vs }

/-- A prefix operator waits for its operand, whatever is on the stack. -/
def pushPrefix (op : Kind) (s : Span) (y : Yard) : Yard :=
  { y with operators := .operator op s :: y.operators }

def pushValue (v : Value) (y : Yard) : Yard := { y with values := v :: y.values }

/-- Opens a bracket at `s`. -/
def openFrame (collected : Collected) (s : Span) (y : Yard) : Yard :=
  { y with
    operators := .marker :: y.operators
    frames := ⟨collected, y.values.length, s⟩ :: y.frames }

/-- Takes the one value that an operand has left above `base`. -/
def takeSingle (base : Nat) (s : Span) (y : Yard) : Except Fault (Value × Yard) :=
  match y.values with
  | [] => .error (.unbalanced 0 s)
  | v :: vs =>
    if vs.length = base then .ok (v, { y with values := vs })
    else .error (.unbalanced (vs.length + 1 - base) s)

/-- Closes the innermost bracket. Its marker goes with it, if that is on top. -/
def closeFrame (y : Yard) : Option Frame × Yard :=
  let operators := match y.operators with
    | .marker :: ops => ops
    | ops => ops
  (y.frames.head?, { y with operators, frames := y.frames.tail })

/-- Says what the innermost bracket has collected now. -/
def collect (collected : Collected) (y : Yard) : Yard :=
  match y.frames with
  | [] => y
  | f :: fs => { y with frames := { f with collected } :: fs }

end Yard
end Formula
