import Cutpoint.Expr.Eval
import Cutpoint.Solver.Basic
import Cutpoint.Basic

/-!
# Bounded search

`Bounded.search` tries every assignment of booleans and of the integers from `-bound` to `bound` to
the free variables of a formula.

* Integers are tried in the order 0, 1, -1, 2, -2, …, booleans in the order false, true; the first
  variable changes fastest.
* An assignment that makes the formula false refutes it. If there is none, only a formula without
  integer variables is valid.
* Formulas with array variables or with quantifiers, also in the predicates that they apply, are not
  searched, and neither are those with more assignments than the cap.
-/

set_option autoImplicit false

namespace Cutpoint

namespace Expr

mutual

/-- Whether there is a quantifier in the expression. -/
def hasQuantifier : Expr → Bool
  | bool _ => false
  | int _ => false
  | var _ => false
  | unary _ e => e.hasQuantifier
  | binary _ l r => l.hasQuantifier || r.hasQuantifier
  | select a i => a.hasQuantifier || i.hasQuantifier
  | length a => a.hasQuantifier
  | update a i v l => a.hasQuantifier || i.hasQuantifier || v.hasQuantifier || l.hasQuantifier
  | apply _ es => anyQuantifier es
  | quant _ _ _ => true

def anyQuantifier : List Expr → Bool
  | [] => false
  | e :: es => e.hasQuantifier || anyQuantifier es

end

mutual

/-- The predicates that the expression applies. -/
def applied : Expr → List String
  | bool _ => []
  | int _ => []
  | var _ => []
  | unary _ e => e.applied
  | binary _ l r => l.applied ++ r.applied
  | select a i => a.applied ++ i.applied
  | length a => a.applied
  | update a i v l => a.applied ++ i.applied ++ v.applied ++ l.applied
  | apply p es => p :: allApplied es
  | quant _ _ e => e.applied

def allApplied : List Expr → List String
  | [] => []
  | e :: es => e.applied ++ allApplied es

end

end Expr

namespace Predicates

/-- The definitions of the given names, without those of `seen`; each is then a member of `seen` as
well. -/
def visit (ps : Predicates) : (seen : List String) → List String → List String × List Predicate
  | seen, [] => (seen, [])
  | seen, n :: ns =>
    if seen.contains n then visit ps seen ns
    else
      match ps.find? n with
      | none => visit ps seen ns
      | some p =>
        let (seen', found) := visit ps (n :: seen) ns
        (seen', p :: found)

/-- The definitions that can be reached from the given names, except through those of `seen`. -/
def reach (ps : Predicates) : (fuel : Nat) → (seen : List String) → List String → List Predicate
  | 0, _, _ => []
  | fuel + 1, seen, ns =>
    let (seen', found) := visit ps seen ns
    if found.isEmpty then []
      else found ++ reach ps fuel seen' (found.flatMap fun p => p.body.applied)

end Predicates

/-- Whether there is a quantifier in the expression or in a predicate that it applies, directly or
through others. Every round of the search finds a new definition, so there are at most as many
rounds as definitions. -/
def quantified (ps : Predicates) (e : Expr) : Bool :=
  e.hasQuantifier || (ps.reach (ps.length + 1) [] e.applied).any fun p => p.body.hasQuantifier

structure Bounded where
  bound : Nat
  /-- The greatest number of assignments that are tried. -/
  cap : Nat
  predicates : Predicates := []
  deriving Inhabited

/-- Why a formula is not searched, or not to the end. -/
inductive GaveUp where
  | arrayVariable (name : String)
  | quantifier
  | tooMany (count cap : Nat)
  | evaluation (cause : EvalError)
  deriving DecidableEq, Inhabited

def GaveUp.message : GaveUp → String
  | arrayVariable x => "array variable `" ++ x ++ "` is outside the bounded domain"
  | quantifier => "quantifier outside bounded domain"
  | tooMany n cap =>
    natText n ++ " variables exceed the search cap of " ++ natText cap ++ " assignments"
  | evaluation e => "evaluation failed: " ++ e.message

inductive Search where
  /-- Every assignment makes the formula true. -/
  | exhausted
  | falsified (cex : Counterexample)
  | gaveUp (cause : GaveUp)
  deriving DecidableEq, Inhabited

namespace Bounded

/-- The cap if none is given. -/
def defaultCap : Nat := 1000000

/-- A search with integers from `-|bound|` to `|bound|`, where the greatest bound has 63 bits. -/
def ofBound (bound : Int) (cap : Nat := defaultCap) : Bounded :=
  ⟨min bound.natAbs 9223372036854775807, cap, []⟩

/-- The number of integers from `-|bound|` to `|bound|`, if it has 64 bits. -/
def domainSize? (bound : Int) : Option Nat :=
  if Word64.Unsigned (2 * bound.natAbs + 1) then some (2 * bound.natAbs + 1) else none

/-! ## Assignments -/

/-- The integers by magnitude: 0, 1, -1, 2, -2, …. -/
def intAt (i : Nat) : Int := if i % 2 = 1 then ((i + 1) / 2 : Nat) else -((i / 2 : Nat) : Int)

/-- The number of values of a variable. -/
def size (b : Bounded) (v : Var) : Nat := if v.ty.isBool then 2 else 2 * b.bound + 1

/-- The value of a variable with the given index. -/
def valueAt (v : Var) (i : Nat) : Value := if v.ty.isBool then .bool (i = 1) else .int (intAt i)

/-- The number of assignments. -/
def space (b : Bounded) : List Var → Nat
  | [] => 1
  | v :: vs => b.size v * b.space vs

/-- The assignment with the given index, where the first variable is the lowest digit. -/
def assignmentAt (b : Bounded) : List Var → Nat → Assignment
  | [], _ => []
  | v :: vs, k => (v, valueAt v (k % b.size v)) :: b.assignmentAt vs (k / b.size v)

def evaluator (b : Bounded) : Evaluator := ⟨b.predicates, -b.bound, b.bound⟩

/-- Tries `count` assignments from the one with index `k` on. -/
def scan (b : Bounded) (vs : List Var) (e : Expr) : (count : Nat) → (k : Nat) → Search
  | 0, _ => .exhausted
  | count + 1, k =>
    let a := b.assignmentAt vs k
    match b.evaluator.holds e a with
    | .ok true => scan b vs e count (k + 1)
    | .ok false => .falsified ⟨a.map fun p => (p.1.name, p.2.text)⟩
    | .error err => .gaveUp (.evaluation err)

/-! ## The search -/

def search (b : Bounded) (e : Expr) : Search :=
  let vs := e.free
  match vs.find? fun v => v.ty.isArray with
  | some v => .gaveUp (.arrayVariable v.name)
  | none =>
    if quantified b.predicates e then .gaveUp .quantifier
    else if b.cap < b.space vs then .gaveUp (.tooMany vs.length b.cap)
    else b.scan vs e (b.space vs) 0

/-- What a search says about validity. -/
def validity (b : Bounded) (e : Expr) : Validity :=
  match b.search e with
  | .falsified cex => .invalid cex
  | .gaveUp cause => .unknown cause.message
  | .exhausted =>
    if e.free.all fun v => v.ty.isBool then .valid
    else .unknown ("no counterexample with integers in [-" ++ natText b.bound ++ ", " ++
      natText b.bound ++ "]")

def define (b : Bounded) (p : Predicate) : Bounded := { b with predicates := b.predicates.define p }

/-- The search as a solver. -/
def solver : Solver Bounded where
  define p b := (.ok (), b.define p)
  check e b := (.ok (b.validity e), b)

end Bounded

end Cutpoint
