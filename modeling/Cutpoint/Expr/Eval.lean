import Cutpoint.Expr.Subst
import Cutpoint.Basic

/-!
# Evaluation

`Evaluator.eval` gives the value of an expression under values for its free variables.

* Integers are those of 64 bits with a sign; a result outside that range is an error, never another
  number.
* Division and remainder are Euclidean: the remainder is never negative.
* Conjunction, disjunction and implication look at the right side only if the left one leaves the
  answer open.
* A quantifier over integers ranges over the given domain, in ascending order, and stops at the
  first value that decides it.
* A predicate is evaluated by its definition, with nothing but its arguments in scope, and
  applications nest at most 64 deep.
* Arrays have no values.
-/

set_option autoImplicit false

namespace Cutpoint

/-! ## Values and failures -/

inductive Value where
  | int (n : Int)
  | bool (b : Bool)
  deriving DecidableEq, Inhabited

/-- The sorts that values have. -/
inductive Value.Kind where
  | int
  | bool
  deriving DecidableEq, Inhabited

def Value.Kind.text : Value.Kind → String
  | int => "int"
  | bool => "bool"

def Value.kind : Value → Value.Kind
  | int _ => .int
  | bool _ => .bool

/-- What the evaluator does not handle. -/
inductive Unsupported where
  | arrayTerm
  | arrayBinder
  | deepPredicate
  deriving DecidableEq, Inhabited

inductive EvalError where
  | unbound (name : String)
  | sort (expected found : Value.Kind)
  | divisionByZero
  | overflow
  | unknownPredicate (name : String)
  | arity (name : String) (expected found : Nat)
  | unsupported (what : Unsupported)
  deriving DecidableEq, Inhabited

namespace Value

def int? : Value → Except EvalError Int
  | int n => .ok n
  | v => .error (.sort .int v.kind)

def bool? : Value → Except EvalError Bool
  | bool b => .ok b
  | v => .error (.sort .bool v.kind)

/-- Whether two values of one sort are the same; values of different sorts cannot be compared. -/
def same? : Value → Value → Except EvalError Bool
  | int m, int n => .ok (m = n)
  | bool a, bool b => .ok (a = b)
  | v, w => .error (.sort v.kind w.kind)

end Value

/-! ## Integers of 64 bits -/

/-- The integer as a value, if it has 64 bits. -/
def checked (n : Int) : Except EvalError Value :=
  if Word64.Signed n then .ok (.int n) else .error .overflow

/-- The Euclidean remainder. Where the quotient has more than 64 bits the remainder counts as an
overflow too. -/
def checkedMod (m n : Int) : Except EvalError Value :=
  match checked (m.ediv n) with
  | .ok _ => checked (m.emod n)
  | .error e => .error e

/-! ## Operators -/

def UnOp.eval : UnOp → Value → Except EvalError Value
  | not, v => do return .bool (!(← v.bool?))
  | neg, v => do checked (-(← v.int?))

/-- A binary operator that needs both operands. -/
def BinOp.eval : BinOp → Value → Value → Except EvalError Value
  | add, v, w => do checked ((← v.int?) + (← w.int?))
  | sub, v, w => do checked ((← v.int?) - (← w.int?))
  | mul, v, w => do checked ((← v.int?) * (← w.int?))
  | div, v, w => do
    let n ← w.int?
    if n = 0 then throw .divisionByZero
    checked ((← v.int?).ediv n)
  | mod, v, w => do
    let n ← w.int?
    if n = 0 then throw .divisionByZero
    checkedMod (← v.int?) n
  | lt, v, w => do return .bool ((← v.int?) < (← w.int?))
  | le, v, w => do return .bool ((← v.int?) ≤ (← w.int?))
  | gt, v, w => do return .bool ((← v.int?) > (← w.int?))
  | ge, v, w => do return .bool ((← v.int?) ≥ (← w.int?))
  | eq, v, w => do return .bool (← v.same? w)
  | iff, v, w => do return .bool (← v.same? w)
  | ne, v, w => do return .bool (!(← v.same? w))
  | and, v, w => do return .bool ((← v.bool?) && (← w.bool?))
  | or, v, w => do return .bool ((← v.bool?) || (← w.bool?))
  | implies, v, w => do return .bool (!(← v.bool?) || (← w.bool?))

/-- What the left operand alone decides. -/
def BinOp.decided? : BinOp → Value → Except EvalError (Option Value)
  | and, v => do return if ← v.bool? then none else some (.bool false)
  | or, v => do return if ← v.bool? then some (.bool true) else none
  | implies, v => do return if ← v.bool? then none else some (.bool true)
  | _, _ => .ok none

/-! ## Environments -/

/-- Values by name; the first entry of a name counts. -/
abbrev Env := List (String × Value)

namespace Env

def get? (env : Env) (name : String) : Except EvalError Value :=
  match List.find? (fun p => p.1 = name) env with
  | some p => .ok p.2
  | none => .error (.unbound name)

/-- The parameters with their values; of a name that is listed twice the later value counts. -/
def ofParameters (ps : List Var) (vs : List Value) : Env := ((Var.names ps).zip vs).reverse

end Env

/-- Values of variables. -/
abbrev Assignment := List (Var × Value)

namespace Assignment

/-- Puts a value into an assignment sorted by variable, in place of an earlier one. -/
def insert (v : Var) (x : Value) : Assignment → Assignment
  | [] => [(v, x)]
  | (w, y) :: rest =>
    if v = w then (v, x) :: rest else if v.lt w then (v, x) :: (w, y) :: rest
      else (w, y) :: insert v x rest

/-- The assignment of a list of pairs; of two for the same variable the later counts. -/
def ofPairs (ps : List (Var × Value)) : Assignment := ps.foldl (fun a p => insert p.1 p.2 a) []

/-- Evaluation goes by names: of two variables of one name the later in the assignment counts. -/
def env (a : Assignment) : Env := (a.map fun p => (p.1.name, p.2)).reverse

end Assignment

/-! ## The evaluator -/

/-- The truth value of a single instance that decides the quantifier. -/
def Quantifier.decider : Quantifier → Bool
  | all => false
  | ex => true

/-- What evaluation refers to besides the environment: predicate definitions, and the integers from
`lo` to `hi` for quantifiers. -/
structure Evaluator where
  predicates : Predicates
  lo : Int
  hi : Int
  deriving Inhabited

namespace Evaluator

/-- How deep applications of predicates may nest. -/
def maxDepth : Nat := 64

/-- Tries `count` integers from `n` on, until one of them gives the truth value `stop`. -/
def scan (stop : Bool) (f : Int → Except EvalError Bool) :
    (count : Nat) → (n : Int) → Except EvalError Bool
  | 0, _ => .ok (!stop)
  | count + 1, n => do if (← f n) = stop then return stop else scan stop f count (n + 1)

/-- The truth value of a quantifier whose body has the value `body env`. -/
def quantify (ev : Evaluator) (q : Quantifier) (body : Env → Except EvalError Bool) :
    List Var → Env → Except EvalError Bool
  | [], env => body env
  | b :: bs, env =>
    match b.ty with
    | .int =>
      scan q.decider
        (fun n => quantify ev q body bs ((b.name, .int n) :: env)) (ev.hi - ev.lo + 1).toNat ev.lo
    | .bool => do
      if (← quantify ev q body bs ((b.name, .bool false) :: env)) = q.decider then return q.decider
      quantify ev q body bs ((b.name, .bool true) :: env)
    | .array _ => .error (.unsupported .arrayBinder)

/-- How an application proceeds: from the name and the number of arguments to what the values of the
arguments give. -/
abbrev Enter := String → Nat → Except EvalError (List Value → Except EvalError Value)

mutual

/-- The value of an expression in an environment, where `enter` handles the applications. -/
def evalWith (ev : Evaluator) (enter : Enter) : Expr → Env → Except EvalError Value
  | .bool b, _ => .ok (.bool b)
  | .int n, _ => .ok (.int n)
  | .var v, env => env.get? v.name
  | .unary op e, env => do op.eval (← evalWith ev enter e env)
  | .binary op l r, env => do
    let v ← evalWith ev enter l env
    match ← op.decided? v with
    | some w => return w
    | none => op.eval v (← evalWith ev enter r env)
  | .select _ _, _ => .error (.unsupported .arrayTerm)
  | .length _, _ => .error (.unsupported .arrayTerm)
  | .update _ _ _ _, _ => .error (.unsupported .arrayTerm)
  | .apply p es, env => do
    let body ← enter p es.length
    body (← evalArgs ev enter es env)
  | .quant q bs e, env => do
    return .bool (← ev.quantify q (fun env' => do (← evalWith ev enter e env').bool?) bs env)

/-- The values of arguments, from left to right. -/
def evalArgs (ev : Evaluator) (enter : Enter) : List Expr → Env → Except EvalError (List Value)
  | [], _ => .ok []
  | e :: es, env => do
    let v ← evalWith ev enter e env
    return v :: (← evalArgs ev enter es env)

end

/-- Applications by definition, at most `depth` within each other. -/
def enterAt (ev : Evaluator) : (depth : Nat) → Enter
  | 0, _, _ => .error (.unsupported .deepPredicate)
  | depth + 1, p, found =>
    match ev.predicates.find? p with
    | none => .error (.unknownPredicate p)
    | some d =>
      if d.parameters.length = found then
        .ok fun vs => evalWith ev (enterAt ev depth) d.body (.ofParameters d.parameters vs)
      else .error (.arity p d.parameters.length found)

/-- The value of an expression in an environment. -/
def evalIn (ev : Evaluator) (e : Expr) (env : Env) : Except EvalError Value :=
  evalWith ev (enterAt ev maxDepth) e env

/-- The value of an expression under an assignment. -/
def eval (ev : Evaluator) (e : Expr) (a : Assignment) : Except EvalError Value := evalIn ev e a.env

/-- The truth value of an expression under an assignment. -/
def holds (ev : Evaluator) (e : Expr) (a : Assignment) : Except EvalError Bool := do
  (← ev.eval e a).bool?

end Evaluator

/-! ## Messages -/

def Value.text : Value → String
  | int n => intText n
  | bool b => boolText b

def Unsupported.text : Unsupported → String
  | arrayTerm => "array expression"
  | arrayBinder => "array-valued binder"
  | deepPredicate => "deeply recursive predicate"

def EvalError.message : EvalError → String
  | unbound x => "unbound variable `" ++ x ++ "`"
  | sort e f => "type error: expected " ++ e.text ++ ", found " ++ f.text
  | divisionByZero => "division by zero"
  | overflow => "integer overflow"
  | unknownPredicate p => "unknown predicate `" ++ p ++ "`"
  | arity p e f =>
    "predicate `" ++ p ++ "` expects " ++ natText e ++ " arguments, got " ++ natText f
  | unsupported w => w.text ++ " is not supported by the evaluator"

end Cutpoint
