import Cutpoint.Expr.Printer
import Cutpoint.Flow.Fault
import Cutpoint.Expr.Subst

/-!
# Annotated flow graphs

A program is a list of predicates and a list of procedures. A procedure is a graph of locations,
which are numbered from 0 on; every edge carries the statement that is executed on the way to its
target.

* `Location.annotations`: the conditions of an entry or exit, the invariants of a loop head.
* `Procedure.edges`: the edges out of a location; an entry without any gets one that does nothing,
  to the first location of the body.
-/

set_option autoImplicit false

namespace Cutpoint

/-! ## Statements -/

inductive Statement where
  | assign (target : Var) (value : Expr)
  /-- Changes one element of an array. -/
  | assignAt (array : Var) (index value : Expr)
  /-- Execution goes on only if the condition holds. -/
  | assume (condition : Expr)
  /-- The condition has to hold. -/
  | assert (condition : Expr)
  /-- Calls a procedure on arguments; its results go to `lhs`, or nowhere if that is empty. -/
  | call (lhs : List Var) (callee : String) (arguments : List Var)
  deriving Inhabited

namespace Statement

def isCall : Statement → Bool
  | call _ _ _ => true
  | _ => false

def text : Statement → String
  | assign v e => v.name ++ " := " ++ e.text
  | assignAt a i e => a.name ++ "[" ++ i.text ++ "] := " ++ e.text
  | assume e => "assume " ++ e.text
  | assert e => "assert " ++ e.text
  | call lhs f args =>
    (if lhs.isEmpty then "" else commaList (Var.names lhs) ++ " := ") ++ f ++ "(" ++
      commaList (Var.names args) ++ ")"

end Statement

/-! ## Locations -/

structure Edge where
  target : Nat
  statement : Statement
  deriving Inhabited

/-- What is known at a location. -/
inductive Location.Kind where
  /-- The start of a procedure: what callers guarantee, and ranking functions for recursion. -/
  | entry (conditions rankings : List Expr)
  /-- The end of a procedure: what it guarantees. -/
  | exit (conditions : List Expr)
  /-- The head of a loop: what holds on every arrival, and ranking functions for the loop. -/
  | loopHead (invariants rankings : List Expr)
  | plain
  deriving Inhabited

structure Location where
  kind : Location.Kind
  edges : List Edge := []
  deriving Inhabited

namespace Location

def isEntry (l : Location) : Bool :=
  match l.kind with
  | .entry _ _ => true
  | _ => false

def isExit (l : Location) : Bool :=
  match l.kind with
  | .exit _ => true
  | _ => false

def isLoopHead (l : Location) : Bool :=
  match l.kind with
  | .loopHead _ _ => true
  | _ => false

/-- The ranking functions, at the locations that can have some. -/
def rankings? (l : Location) : Option (List Expr) :=
  match l.kind with
  | .entry _ rs => some rs
  | .loopHead _ rs => some rs
  | _ => none

/-- The ranking functions, none where there can be none. -/
def rankings (l : Location) : List Expr := l.rankings?.getD []

def annotations (l : Location) : List Expr :=
  match l.kind with
  | .entry cs _ => cs
  | .exit cs => cs
  | .loopHead is _ => is
  | .plain => []

/-- Whether an edge out of the location is a call. -/
def hasCall (l : Location) : Bool := l.edges.any fun e => e.statement.isCall

end Location

/-! ## Procedures and programs -/

structure Procedure where
  name : String
  parameters : List Var
  /-- The variables whose values are returned. -/
  results : List Var
  entry : Nat
  exit : Nat
  locations : List Location
  deriving Inhabited

namespace Procedure

/-- The location of a number. -/
def location (f : Procedure) (id : Nat) : Except Fault Location :=
  match f.locations[id]? with
  | some l => .ok l
  | none => .error (.malformed f.name (.noLocation id))

/-- The locations besides entry and exit. -/
def body (f : Procedure) : List Nat :=
  (List.range f.locations.length).filter fun id => id != f.entry && id != f.exit

def entryConditions (f : Procedure) : Except Fault (List Expr) :=
  return (← f.location f.entry).annotations

def exitConditions (f : Procedure) : Except Fault (List Expr) :=
  return (← f.location f.exit).annotations

def entryRankings (f : Procedure) : Except Fault (List Expr) :=
  return (← f.location f.entry).rankings

/-- The edge out of an entry that has none of its own. -/
def defaultEdge (f : Procedure) : Edge := ⟨f.body.head?.getD f.exit, .assume .tt⟩

/-- The edges out of a location. -/
def edges (f : Procedure) (id : Nat) : Except Fault (List Edge) := do
  let l ← f.location id
  return if id = f.entry ∧ l.edges.isEmpty then [f.defaultEdge] else l.edges

end Procedure

structure Program where
  predicates : List Predicate
  procedures : List Procedure
  deriving Inhabited

namespace Program

/-- The first procedure of the given name. -/
def procedure (p : Program) (name : String) : Except Fault Procedure :=
  match p.procedures.find? fun f => f.name = name with
  | some f => .ok f
  | none => .error (.unknownProcedure name)

end Program

end Cutpoint
