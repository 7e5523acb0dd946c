import Formula.Operation

/-!
Functions that expressions can call: the four that every environment of standard make has, and
the numeric ones that a host can ask for by name.
-/
namespace Formula

/-- A callable, and the milliseconds that a call takes off the time of an evaluation. -/
structure Function where
  apply : List Value → Except Fault Value
  duration : Nat

namespace Fault

/-- A call with too few or too many arguments. -/
def argumentCount (function expected : String) (actual : Nat) : Fault :=
  ofRuntime (.argumentCount function expected actual)
    (function ++ "() takes " ++ expected ++ " argument(s), got " ++ toString actual)

/-- An extreme of nothing. -/
def noCandidate (function : String) : Fault :=
  ofRuntime (.argumentCount function "at least 1" 0) (function ++ "() needs at least one value")

/-- An argument that does not pass for a number. -/
def numericArgument (function : String) (v : Value) : Fault :=
  ofRuntime .invalidOperand (function ++ "() expects a number, got " ++ v.typeName)

end Fault

namespace Function

/-- A function whose calls take no time worth counting. -/
def instant (apply : List Value → Except Fault Value) : Function := ⟨apply, 0⟩

/-- The second argument if the first is true, else the third, which may be left out. -/
def choose (args : List Value) : Except Fault Value :=
  match args with
  | [condition, yes] => .ok (if condition.truthy then yes else .number 0.0)
  | [condition, yes, no] => .ok (if condition.truthy then yes else no)
  | _ => .error (.argumentCount "if" "2 to 3" args.length)

/-- The first argument that is true, null if none is. -/
def coalesce (args : List Value) : Except Fault Value :=
  .ok ((args.find? Value.truthy).getD .null)

/-- What an extreme is taken of: the arguments, or the values of the only argument if that is
an array. -/
def candidates : List Value → List Value
  | [.array es] => Entries.values es
  | args => args

/-- The first of the values that no later one passes in the direction wanted. -/
def best (wanted : Ordering) (first : Value) (others : List Value) : Value :=
  others.foldl (fun b v => if v.compare? b == some wanted then v else b) first

def extreme (name : String) (wanted : Ordering) (args : List Value) : Except Fault Value :=
  match candidates args with
  | [] => .error (.noCandidate name)
  | v :: vs => .ok (best wanted v vs)

def numericArgument (name : String) (v : Value) : Except Fault Float :=
  match v.number? with
  | some x => .ok x
  | none => .error (.numericArgument name v)

/-- A numeric function of one argument. -/
def numeric (name : String) (f : Float → Float) : Function := .instant fun args =>
  match args with
  | [v] => return .number (f (← numericArgument name v))
  | _ => .error (.argumentCount name "1" args.length)

def power (args : List Value) : Except Fault Value :=
  match args with
  | [v, w] => do
    let x ← numericArgument "pow" v
    let y ← numericArgument "pow" w
    return .number (x.pow y)
  | _ => .error (.argumentCount "pow" "2" args.length)

def minimum : Function := .instant (extreme "min" .lt)

def maximum : Function := .instant (extreme "max" .gt)

/-- The functions of a standard environment. -/
def standard : List (String × Function) :=
  [("if", .instant choose), ("coalesce", .instant coalesce), ("min", minimum), ("max", maximum)]

/-- The functions that a host can add by name. -/
def builtins : List (String × Function) :=
  [("abs", numeric "abs" Float.abs),
   ("ceil", numeric "ceil" Float.ceil),
   ("floor", numeric "floor" Float.floor),
   ("round", numeric "round" Float.round),
   ("sqrt", numeric "sqrt" Float.sqrt),
   ("exp", numeric "exp" Float.exp),
   ("ln", numeric "ln" Float.log),
   ("log10", numeric "log10" Float.log10),
   ("sin", numeric "sin" Float.sin),
   ("cos", numeric "cos" Float.cos),
   ("tan", numeric "tan" Float.tan),
   ("min", minimum),
   ("max", maximum),
   ("pow", .instant power)]

end Function
end Formula
