import Cutpoint.Condition.Context

/-!
# Weakest preconditions

`PathContext.weakest` goes backwards over the statements of a path, from a condition on the state at
its end to one on the state at its start.

* An assignment is a substitution, for an array that of the updated array, which keeps its length.
* An assumption becomes a premise, an assertion one more condition.
* A call is only known by its contract: whatever results satisfy the exit conditions, the condition
  has to hold with them. The results get new names, also those that go nowhere.
-/

set_option autoImplicit false

namespace Cutpoint

namespace PathContext

/-- Values for the results of a callee: replacements for its result variables, and for the variables
that are assigned. -/
def bindResults : (binding assigned : Subst) → List Var → (lhs : List Var) → Naming (Subst × Subst)
  | binding, assigned, [], _ => pure (binding, assigned)
  | binding, assigned, r :: rs, [] => do
    let v ← Naming.fresh r
    bindResults (binding.insert r (.var v)) assigned rs []
  | binding, assigned, r :: rs, x :: lhs => do
    let v ← Naming.fresh x
    bindResults (binding.insert r (.var v)) (assigned.insert x (.var v)) rs lhs

/-- The condition before a call. -/
def weakestCall (c : PathContext) (lhs : List Var) (name : String) (arguments : List Var)
    (post : Expr) : Naming Expr := do
  let g ← Naming.ofExcept (c.callee lhs name arguments)
  let exit := Expr.conj (← Naming.ofExcept g.exitConditions)
  Naming.reserve exit.freeNames
  Naming.reserve post.freeNames
  let (binding, assigned) ← bindResults (g.binding arguments) [] g.results lhs
  return .implies (exit.subst binding) (post.subst assigned)

/-- The condition before a statement. -/
def weakestStep (c : PathContext) (s : Statement) (post : Expr) : Naming Expr :=
  match s with
  | .assign v e => pure (post.subst [(v, e)])
  | .assignAt a i e => pure (post.subst [(a, .update (.var a) i e (.length (.var a)))])
  | .assume e => pure (.implies e post)
  | .assert e => pure (.and post e)
  | .call lhs name arguments => c.weakestCall lhs name arguments post

/-- The condition before a list of statements. -/
def weakestAll (c : PathContext) : List Statement → Expr → Naming Expr
  | [], post => pure post
  | s :: ss, post => do c.weakestStep s (← c.weakestAll ss post)

/-- The condition at the start of the path that makes `post` hold at its end. -/
def weakest (c : PathContext) (post : Expr) : Naming Expr := do
  Naming.reserve post.freeNames
  c.weakestAll c.statements post

/-- What is assumed at the start of the path implies that it leads to what is asked at its end. -/
def partialCorrectness (c : PathContext) : Naming Expr := do
  let d ← Naming.ofExcept c.demand
  return .implies c.precondition (← c.weakest d.post)

end PathContext

end Cutpoint
