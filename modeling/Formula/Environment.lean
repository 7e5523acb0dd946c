import Formula.Function
import Formula.Limits

/-!
Everything that an expression can refer to: constants, functions, and handlers that stand in
for operators; whether an unknown name is a fault; and what an evaluation may cost.
-/
namespace Formula

/-- Bindings of keys to things. The latest binding of a key counts. -/
abbrev Bindings (κ α : Type) : Type := List (κ × α)

namespace Bindings

variable {κ α : Type} [DecidableEq κ]

def get? (b : Bindings κ α) (k : κ) : Option α := (b.find? fun p => p.1 = k).map Prod.snd

/-- Binds a key and forgets what it was bound to. -/
def insert (b : Bindings κ α) (k : κ) (a : α) : Bindings κ α :=
  (k, a) :: b.filter fun p => p.1 ≠ k

def keys (b : Bindings κ α) : List κ := b.map Prod.fst

def ofPairs (pairs : List (κ × α)) : Bindings κ α := pairs.foldl (fun b p => b.insert p.1 p.2) []

theorem get?_insert_self (b : Bindings κ α) (k : κ) (a : α) : (b.insert k a).get? k = some a := by
  simp [get?, insert]

theorem get?_insert_of_ne (b : Bindings κ α) {j k : κ} (a : α) (h : j ≠ k) :
    (b.insert k a).get? j = b.get? j := by
  simp only [get?, insert, List.find?_cons, Ne.symm h, decide_false, List.find?_filter]
  congr 2
  funext p
  by_cases hp : p.1 = j <;> simp [hp, h]

end Bindings

/-- The stand-in for an operator. A prefix operator gives it the operand and null. -/
abbrev Handler : Type := Value → Value → Except Fault Value

structure Environment where
  functions : Bindings String Function
  constants : Bindings String Value
  operators : Bindings Kind Handler
  strict : Bool
  limits : Limits

namespace Fault

def undefinedFunction (name : String) : Fault :=
  ofRuntime (.undefinedFunction name) ("undefined function \"" ++ name ++ "\"")

def undefinedConstant (name : String) : Fault :=
  ofRuntime (.undefinedConstant name) ("undefined constant \"" ++ name ++ "\"")

/-- There is no builtin function of this name. -/
def unknownBuiltin (name : String) : Fault :=
  (ofRuntime (.undefinedFunction name) ("no host builtin named \"" ++ name ++ "\"")).withSuggestion
    ("available: " ++ ", ".intercalate (Function.builtins.map Prod.fst))

/-- A kind of token that is no operator cannot have a handler. -/
def notAnOperator (k : Kind) : Fault :=
  ofRuntime (.unsupportedOperator k)
    (k.name ++ " is not an operator and cannot be overridden")

def undefinedHandler (k : Kind) : Fault :=
  ofRuntime (.undefinedOperatorHandler k) ("no handler registered for operator " ++ k.name)

end Fault

namespace Environment

/-- An environment with nothing in it. -/
def empty : Environment := ⟨[], [], [], false, .standard⟩

def defineFunction (env : Environment) (name : String) (f : Function) : Environment :=
  { env with functions := env.functions.insert name f }

def defineConstant (env : Environment) (name : String) (v : Value) : Environment :=
  { env with constants := env.constants.insert name v }

/-- Constants bound one after the other. -/
def defineConstants (env : Environment) (pairs : List (String × Value)) : Environment :=
  pairs.foldl (fun env p => env.defineConstant p.1 p.2) env

/-- The environment that an expression has unless its host makes another. -/
def standard : Environment :=
  Function.standard.foldl (fun env p => env.defineFunction p.1 p.2) empty

def defineBuiltin (env : Environment) (name : String) : Except Fault Environment :=
  match Function.builtins.lookup name with
  | some f => .ok (env.defineFunction name f)
  | none => .error (.unknownBuiltin name)

/-- A standard environment with every builtin that it does not have already. -/
def complete : Environment :=
  Function.builtins.foldl
    (fun env p => if (env.functions.get? p.1).isSome then env else env.defineFunction p.1 p.2)
    standard

def defineOperator (env : Environment) (op : Kind) (h : Handler) : Except Fault Environment :=
  if op.isOperator then .ok { env with operators := env.operators.insert op h }
  else .error (.notAnOperator op)

def setConstants (env : Environment) (pairs : List (String × Value)) : Environment :=
  { env with constants := .ofPairs pairs }

def setStrict (env : Environment) (strict : Bool) : Environment := { env with strict }

def setLimits (env : Environment) (limits : Limits) : Environment := { env with limits }

def hasFunction (env : Environment) (name : String) : Bool := (env.functions.get? name).isSome

def hasOperator (env : Environment) (op : Kind) : Bool := (env.operators.get? op).isSome

def constant? (env : Environment) (name : String) : Option Value := env.constants.get? name

/-- The value of a name. A name that is not bound is null, or a fault in a strict environment. -/
def resolve (env : Environment) (name : String) : Except Fault Value :=
  match env.constants.get? name with
  | some v => .ok v
  | none => if env.strict then .error (.undefinedConstant name) else .ok .null

def call (env : Environment) (name : String) (args : List Value) : Except Fault Value :=
  match env.functions.get? name with
  | some f => f.apply args
  | none => .error (.undefinedFunction name)

/-- The milliseconds that a call takes. -/
def callDuration (env : Environment) (name : String) : Nat :=
  ((env.functions.get? name).map Function.duration).getD 0

def invokeOperator (env : Environment) (op : Kind) (v w : Value) : Except Fault Value :=
  match env.operators.get? op with
  | some h => h v w
  | none => .error (.undefinedHandler op)

/-- What a prefix operator does here. -/
def prefixRule (env : Environment) (op : Kind) (v : Value) : Except Fault Value :=
  match env.operators.get? op with
  | some h => h v .null
  | none => Operation.applyPrefix op v

/-- What an infix operator does here. -/
def infixRule (env : Environment) (op : Kind) (v w : Value) : Except Fault Value :=
  match env.operators.get? op with
  | some h => h v w
  | none => Operation.applyInfix op v w

/-- Names in their order. -/
def sortedNames (names : List String) : List String := names.mergeSort fun a b => decide (a ≤ b)

/-- The constants by name. -/
def constantList (env : Environment) : List (String × Value) :=
  env.constants.mergeSort fun a b => decide (a.1 ≤ b.1)

/-- One line that tells what an environment has, its constants apart. -/
def summary (env : Environment) : String :=
  let functions := (sortedNames env.functions.keys).map Text.quoted
  let operators := (Kind.all.filter env.hasOperator).map Kind.name
  let l := env.limits
  "Environment \x7b functions: [" ++ ", ".intercalate functions ++
    "], constants: \x7b\x7d, operators: [" ++ ", ".intercalate operators ++
    "], strict: " ++ toString env.strict ++
    ", limits: ResourceLimits \x7b max_expression_bytes: " ++ toString l.bytes ++
    ", max_nesting_depth: " ++ toString l.depth ++
    ", max_evaluation_steps: " ++ toString l.steps ++
    ", max_evaluation_time_ms: " ++ toString l.time ++ " \x7d \x7d"

end Environment
end Formula
