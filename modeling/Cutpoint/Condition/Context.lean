import Cutpoint.Flow.Validate
import Cutpoint.Path.Search

/-!
# The context of a path

`PathContext` is a basic path with what is needed to reason about it: its statements, and the
locations at its ends. The names in use on a path are collected first; `Naming` is for steps that
take new names, and names once taken stay taken.

* `PathContext.precondition`: what is assumed at the start.
* `PathContext.demand`: what is asked at the end, where every call out of the last location asks for
  the callee's entry conditions with arguments for parameters.
-/

set_option autoImplicit false

namespace Cutpoint

/-! ## Names in use -/

abbrev Names := List String

/-- Computations that may take names and may fail. -/
abbrev Naming (α : Type) := ExceptT Fault (StateM Names) α

namespace Naming

/-- Adds names to those in use. -/
def reserve (names : Names) : Naming Unit := modify (names ++ ·)

/-- A new variable named after `v`. -/
def fresh (v : Var) : Naming Var := do
  let w := v.fresh (← get)
  reserve [w.name]
  return w

/-- New variables for a list of variables, in order. -/
def freshAll : List Var → Naming (List Var)
  | [] => pure []
  | v :: vs => return (← fresh v) :: (← freshAll vs)

/-- A step that takes no names. -/
def ofExcept {α : Type} (x : Except Fault α) : Naming α := ExceptT.mk (pure x)

end Naming

/-- The names that a statement mentions. -/
def Statement.names : Statement → Names
  | assign v e => v.name :: e.freeNames
  | assignAt a i e => a.name :: (i.freeNames ++ e.freeNames)
  | assume e => e.freeNames
  | assert e => e.freeNames
  | call lhs _ args => Var.names lhs ++ Var.names args

/-- The names that annotations and ranking functions of a location mention. -/
def Location.names (l : Location) : Names := (l.annotations ++ l.rankings).flatMap Expr.freeNames

/-! ## Contexts -/

structure PathContext where
  program : Program
  procedure : Procedure
  path : BasicPath
  /-- The statements on the path. -/
  statements : List Statement
  /-- The location where the path starts. -/
  first : Location
  /-- The location where the path ends. -/
  last : Location
  /-- The names that statements and locations of the path mention. -/
  names : Names
  deriving Inhabited

/-- Arguments for the parameters of a callee. -/
def Procedure.binding (callee : Procedure) (arguments : List Var) : Subst :=
  .ofPairs (callee.parameters.zip (arguments.map Expr.var))

/-- What is asked at the end of a path. -/
structure Demand where
  /-- What has to hold. -/
  post : Expr
  /-- The ranking functions that a path leads to: those of the loop head, then those of each
  callee. -/
  rankings : List (List Expr)
  deriving Inhabited

namespace PathContext

/-- The context of a path of a procedure. -/
def of (p : Program) (f : Procedure) (path : BasicPath) : Except Fault PathContext := do
  let es ← path.edges f
  let ls ← path.locations.mapM f.location
  let first ← f.location path.start
  let last ← f.location path.finish
  let statements := es.map Edge.statement
  return { program := p, procedure := f, path, statements, first, last,
           names := statements.flatMap Statement.names ++ ls.flatMap Location.names }

/-- What is assumed at the start of the path. -/
def precondition (c : PathContext) : Expr := .conj c.first.annotations

/-- The ranking functions at the start of the path. -/
def rankings (c : PathContext) : List Expr := c.first.rankings

/-- The callee of a call, if arguments and results fit. -/
def callee (c : PathContext) (lhs : List Var) (name : String) (arguments : List Var) :
    Except Fault Procedure := do
  let g ← c.program.procedure name
  c.procedure.checkCall g lhs arguments
  return g

/-- The entry conditions and ranking functions of the callees on edges, with arguments for
parameters. -/
def callDemands (c : PathContext) : List Edge → Except Fault (List Expr × List (List Expr))
  | [] => .ok ([], [])
  | e :: es =>
    match e.statement with
    | .call lhs name arguments => do
      let g ← c.callee lhs name arguments
      let conditions := (← g.entryConditions).map (Expr.subst (g.binding arguments))
      let rankings := (← g.entryRankings).map (Expr.subst (g.binding arguments))
      let (cs, rs) ← c.callDemands es
      return (conditions ++ cs, rankings :: rs)
    | _ => c.callDemands es

/-- What is asked at the end of the path: invariants and ranking functions of a loop head,
conditions of the exit, and what the callees of calls out of the last location ask. -/
def demand (c : PathContext) : Except Fault Demand := do
  let (cs, rs) ← c.callDemands c.last.edges
  let own := if c.last.isLoopHead || c.last.isExit then c.last.annotations else []
  return ⟨.conj (own ++ cs), if c.last.isLoopHead then c.last.rankings :: rs else rs⟩

end PathContext

end Cutpoint
