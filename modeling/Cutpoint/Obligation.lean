import Cutpoint.Condition.Termination

/-!
# Obligations

The formulas that have to be valid for a program to meet its annotations, path by path.
-/

set_option autoImplicit false

namespace Cutpoint

inductive Obligation.Kind where
  | partialCorrectness
  | termination
  /-- A ranking function is an arithmetic negation, which is never accepted. -/
  | malformedRanking
  deriving DecidableEq, Inhabited

def Obligation.Kind.text : Obligation.Kind → String
  | partialCorrectness => "partial correctness"
  | termination => "termination"
  | malformedRanking => "malformed ranking function"

structure Obligation where
  procedure : String
  path : BasicPath
  kind : Obligation.Kind
  formula : Expr
  deriving Inhabited

namespace PathContext

/-- The formulas of a path: partial correctness, then termination. -/
def formulas (c : PathContext) : Naming (Expr × List Expr) := do
  let main ← c.partialCorrectness
  let d ← Naming.ofExcept c.demand
  return (main, ← c.termination c.precondition d.rankings)

/-- The obligations of a path. -/
def obligations (c : PathContext) : Except Fault (List Obligation) :=
  let obligation := Obligation.mk c.procedure.name c.path
  if c.rankings.any Expr.isNegation then .ok [obligation .malformedRanking .ff]
  else do
    let (main, rest) ← (c.formulas.run c.names).1
    return obligation .partialCorrectness main :: rest.map (obligation .termination)

end PathContext

namespace Program

/-- The obligations of a path of a procedure. -/
def pathObligations (p : Program) (f : Procedure) (path : BasicPath) :
    Except Fault (List Obligation) := do
  (← PathContext.of p f path).obligations

/-- The obligations of several paths. -/
def pathsObligations (p : Program) (f : Procedure) : List BasicPath → Except Fault (List Obligation)
  | [] => .ok []
  | path :: paths => return (← p.pathObligations f path) ++ (← p.pathsObligations f paths)

/-- The obligations of a procedure. -/
def procedureObligations (p : Program) (f : Procedure) : Except Fault (List Obligation) := do
  p.pathsObligations f (← f.basicPaths)

def proceduresObligations (p : Program) : List Procedure → Except Fault (List Obligation)
  | [] => .ok []
  | f :: fs => return (← p.procedureObligations f) ++ (← p.proceduresObligations fs)

/-- The obligations of a well-formed program. -/
def obligations (p : Program) : Except Fault (List Obligation) := do
  p.validate
  p.proceduresObligations p.procedures

end Program

end Cutpoint
