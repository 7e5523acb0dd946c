import Formula.Scan
import Formula.Yard

/-!
Evaluation of tokens, one after the other and in one pass. A run is the fold of one step over
the tokens; a fault ends it. The limits are looked at before every step.
-/
namespace Formula

namespace Fault

/-- A token that cannot stand where it is. -/
def unexpected (t : Token) : Fault :=
  ((ofSyntax .unexpectedToken
    ("unexpected " ++ t.kind.symbol ++ " `" ++ t.display ++ "`")).withFragment
      t.display).withSpan t.span

/-- The tokens end, but a value has to follow. -/
def unexpectedEnd (last : Token) : Fault :=
  (ofSyntax .unexpectedEnd
    ("expression ends after `" ++ last.display ++ "` where a value is expected")).withSpan last.span

/-- A closing bracket that no open bracket waits for. -/
def unmatched (t : Token) : Fault :=
  (ofSyntax .unmatchedClose
    ("`" ++ t.kind.symbol ++ "` does not close any open bracket")).withSpan t.span

def unclosed (s : Span) : Fault := (ofSyntax .unclosedBracket "bracket is never closed").withSpan s

def emptyExpression : Fault := ofSyntax .emptyExpression "nothing to evaluate"

def leftValues (n : Nat) : Fault :=
  ofSyntax .unbalancedExpression
    ("expression left " ++ toString n ++ " values instead of one")

def tooLong (limit bytes : Nat) : Fault :=
  .limitExceeded "max_expression_bytes" (toString limit) (toString bytes)
    "Shorten the expression or raise max_expression_bytes"

def tooManySteps (limit step : Nat) : Fault :=
  .limitExceeded "max_evaluation_steps" (toString limit) (toString step)
    "Split the expression or raise max_evaluation_steps"

def tooDeep (limit depth : Nat) (s : Span) : Fault :=
  .limitExceeded "max_nesting_depth" (toString limit) (toString depth)
    ("Brackets nest " ++ toString depth ++ " deep at " ++ s.text ++
      ". Flatten the expression or raise max_nesting_depth.")

def outOfTime (limit elapsed step : Nat) : Fault :=
  .limitExceeded "max_evaluation_time_ms" (toString limit) (toString elapsed)
    ("Time ran out at token " ++ toString step ++ " after " ++ toString elapsed ++
      "ms. Simplify the expression or raise max_evaluation_time_ms.")

end Fault

/-- The state of an evaluation between two tokens. -/
structure Run where
  yard : Yard
  /-- The name of a call that waits for its parenthesis. -/
  awaiting : Option Token
  /-- Tokens behind. -/
  consumed : Nat
  /-- Milliseconds spent in functions. Everything else takes no time. -/
  elapsed : Nat

namespace Run

def start : Run := ⟨.empty, none, 0, 0⟩

/-- A fault where an operand may not begin. -/
def requireOperand (y : Yard) (t : Token) : Except Fault Unit :=
  if y.expectsOperand then .ok () else .error (.unexpected t)

/-- A fault where an operand has to begin. -/
def requireOperator (y : Yard) (t : Token) : Except Fault Unit :=
  if y.expectsOperand then .error (.unexpected t) else .ok ()

/-- One more bracket must not be one too many. -/
def checkDepth (limits : Limits) (y : Yard) (t : Token) : Except Fault Unit :=
  if limits.depth < y.frames.length + 1 then
    .error (.tooDeep limits.depth (y.frames.length + 1) t.span)
  else .ok ()

/-- The stacks of an operation, or its fault alone. -/
def settled (r : Except Yard.Halted Yard) : Except Fault Yard := r.mapError Yard.Halted.fault

def operand (v : Value) (y : Yard) : Yard := { y.pushValue v with expectsOperand := false }

/-- A value, where an operand may begin. -/
def onValue (y : Yard) (t : Token) (v : Except Fault Value) : Except Fault Yard := do
  requireOperand y t
  return operand (← v) y

/-- Opens a bracket that begins an operand. -/
def onOpen (limits : Limits) (y : Yard) (t : Token) (collected : Collected) :
    Except Fault Yard := do
  requireOperand y t
  checkDepth limits y t
  return { y.openFrame collected t.span with expectsOperand := true }

/-- A comma ends an argument or an entry. -/
def onComma (env : Environment) (y : Yard) (t : Token) : Except Fault Yard := do
  requireOperator y t
  let y ← settled (y.reduce env)
  match y.frames with
  | ⟨.call name args, base, _⟩ :: _ =>
    let (v, y) ← y.takeSingle base t.span
    return { y.collect (.call name (args ++ [v])) with expectsOperand := true }
  | ⟨.array es key, base, _⟩ :: _ =>
    let (v, y) ← y.takeSingle base t.span
    let es ← (Entries.store es key v).mapError (Fault.orSpan · t.span)
    return { y.collect (.array es none) with expectsOperand := true }
  | _ => .error (.unexpected t)

/-- An arrow ends the key of an entry that has none yet. -/
def onArrow (env : Environment) (y : Yard) (t : Token) : Except Fault Yard := do
  requireOperator y t
  match y.frames with
  | ⟨.array es none, base, _⟩ :: _ =>
    let y ← settled (y.reduce env)
    let (v, y) ← y.takeSingle base t.span
    return { y.collect (.array es (some v)) with expectsOperand := true }
  | _ => .error (.unexpected t)

/-- The innermost bracket has received nothing at all. -/
def isBlank (y : Yard) (f : Frame) : Bool :=
  y.expectsOperand && !f.collected.isGroup && f.collected.isFresh &&
    y.values.length == f.base && y.operators.head? == some .marker

/-- The value of a bracket that closes with `last` at `t`, and the time that it took. -/
def closeValue (env : Environment) (f : Frame) (t : Token) (last : Option Value) :
    Except Fault (Value × Nat) :=
  match f.collected with
  | .group => .ok (last.getD .null, 0)
  | .call name args =>
    ((env.call name (args ++ last.toList)).map (·, env.callDuration name)).mapError
      (Fault.orSpan · f.opened)
  | .array es key =>
    match last with
    | none => .ok (.array es, 0)
    | some v =>
      ((Entries.store es key v).map fun es => (.array es, 0)).mapError (Fault.orSpan · t.span)

/-- A bracket closes, and its value is an operand. -/
def onClose (env : Environment) (y : Yard) (t : Token) : Except Fault (Yard × Nat) :=
  match y.frames with
  | [] => .error (.unmatched t)
  | f :: _ =>
    if f.collected.isArray != (t.kind == .arrayClose) then .error (.unmatched t)
    else if isBlank y f then do
      let (_, y) := y.closeFrame
      let (v, time) ← closeValue env f t none
      return (operand v y, time)
    else if y.expectsOperand then .error (.unexpected t)
    else do
      let y ← settled (y.reduce env)
      let (last, y) ← y.takeSingle f.base t.span
      let (_, y) := y.closeFrame
      let (v, time) ← closeValue env f t (some last)
      return (operand v y, time)

/-- A prefix operator, where an operand may begin. -/
def onPrefix (y : Yard) (t : Token) : Except Fault Yard := do
  requireOperand y t
  return y.pushPrefix t.kind t.span

/-- An infix operator, behind an operand. -/
def onInfix (env : Environment) (y : Yard) (t : Token) : Except Fault Yard := do
  requireOperator y t
  let y ← settled (y.pushBinary env t.kind t.span)
  return { y with expectsOperand := true }

/-- The steps so far and the time spent must be within their limits. -/
def checkBudget (limits : Limits) (r : Run) : Except Fault Unit :=
  let step := r.consumed + 1
  if limits.steps < step then .error (.tooManySteps limits.steps step)
  else if limits.time < r.elapsed then .error (.outOfTime limits.time r.elapsed step)
  else .ok ()

/-- The run behind one more token. -/
def next (r : Run) (y : Yard) : Run :=
  { r with yard := y, awaiting := none, consumed := r.consumed + 1 }

/-- The effect of a token. -/
def process (env : Environment) (r : Run) (t : Token) : Except Fault Run :=
  let y := r.yard
  match t.kind with
  | .number | .literal => (onValue y t (.ok t.value)).map r.next
  | .identifier => (onValue y t ((env.resolve t.name).mapError (Fault.orSpan · t.span))).map r.next
  | .functionCall => (requireOperand y t).map fun _ => { r.next y with awaiting := some t }
  | .parenOpen => (onOpen env.limits y t .group).map r.next
  | .arrayOpen => (onOpen env.limits y t (.array [] none)).map r.next
  | .comma => (onComma env y t).map r.next
  | .pairArrow => (onArrow env y t).map r.next
  | .parenClose | .arrayClose =>
    (onClose env y t).map fun (y, time) => { r.next y with elapsed := r.elapsed + time }
  | .unaryPlus | .unaryMinus | .not => (onPrefix y t).map r.next
  | _ => (onInfix env y t).map r.next

/-- The parenthesis of a call belongs to the step of its name: the budget is not looked at
again. -/
def openCall (env : Environment) (r : Run) (call t : Token) : Except Fault Run :=
  if t.kind = .parenOpen then
    (onOpen env.limits r.yard call (.call call.name [])).map r.next
  else .error (.unexpected t)

def step (env : Environment) (r : Run) (t : Token) : Except Fault Run :=
  match r.awaiting with
  | some call => openCall env r call t
  | none => do
    checkBudget env.limits r
    process env r t

def steps (env : Environment) (r : Run) (ts : List Token) : Except Fault Run :=
  ts.foldlM (step env) r

/-- The value of an evaluation whose last token was `last`. -/
def finish (env : Environment) (r : Run) (last : Token) : Except Fault Value :=
  match r.awaiting, r.yard.frames with
  | some call, _ => .error (.unexpectedEnd call)
  | none, f :: _ => .error (.unclosed f.opened)
  | none, [] =>
    if r.yard.expectsOperand then .error (.unexpectedEnd last)
    else do
      let y ← settled (r.yard.reduce env)
      match y.values with
      | [v] => return v
      | vs => .error (.leftValues vs.length)

end Run

/-- The value of a list of tokens. -/
def evaluateTokens (env : Environment) (ts : List Token) : Except Fault Value :=
  match ts.getLast? with
  | none => .error .emptyExpression
  | some last => do
    let r ← Run.start.steps env ts
    r.finish env last

namespace Environment

/-- The value of an expression. -/
def evaluate (env : Environment) (source : String) : Except Fault Value :=
  if env.limits.bytes < source.utf8ByteSize then
    .error (.tooLong env.limits.bytes source.utf8ByteSize)
  else do
    let stream ← tokenize source
    evaluateTokens env stream.tokens

end Environment

end Formula
