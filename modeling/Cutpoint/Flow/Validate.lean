import Cutpoint.Flow.Basic

/-!
# Well-formed programs

`Program.validate` looks for the first thing that is wrong with a program, procedure by procedure.

* Names of procedures differ. Entry and exit are there and of their kinds, and no other location is.
* Every edge has a target. Every call has a callee, as many arguments as the callee has parameters,
  and as many results as it returns or none.
* Every cycle passes a loop head: `Procedure.visit` goes through the graph without the loop heads,
  depth first.
-/

set_option autoImplicit false

namespace Cutpoint

/-- A call passes all arguments, and binds all results or none. -/
def Procedure.checkCall (caller callee : Procedure) (lhs arguments : List Var) :
    Except Fault Unit :=
  if arguments.length ≠ callee.parameters.length then
    .error (.mismatch caller.name
      (.arguments callee.name arguments.length callee.parameters.length))
  else if lhs ≠ [] ∧ lhs.length ≠ callee.results.length then
    .error (.mismatch caller.name (.results callee.name lhs.length callee.results.length))
  else .ok ()

namespace Program

/-- The target of an edge is there, and a call fits its callee. -/
def checkEdge (p : Program) (f : Procedure) (e : Edge) : Except Fault Unit := do
  let _ ← f.location e.target
  match e.statement with
  | .call lhs g args => f.checkCall (← p.procedure g) lhs args
  | _ => .ok ()

def checkEdges (p : Program) (f : Procedure) : List Edge → Except Fault Unit
  | [] => .ok ()
  | e :: es => do
    p.checkEdge f e
    p.checkEdges f es

/-- Checks the locations from number `id` on. -/
def checkLocations (p : Program) (f : Procedure) : (id : Nat) → List Location → Except Fault Unit
  | _, [] => .ok ()
  | id, l :: ls => do
    if id ≠ f.entry ∧ l.isEntry then throw (.malformed f.name (.secondEntry id))
    if id ≠ f.exit ∧ l.isExit then throw (.malformed f.name (.secondExit id))
    p.checkEdges f l.edges
    p.checkLocations f (id + 1) ls

end Program

namespace Procedure

/-- Goes to the targets of edges one after the other: a loop head is passed over, a location that is
being visited closes a cycle, and any other that is not done is visited. Returns the locations that
are then done. -/
def visitTargets (f : Procedure) (visit : List Nat → Nat → Except Fault (List Nat))
    (path : List Nat) : List Edge → (done : List Nat) → Except Fault (List Nat)
  | [], done => .ok done
  | e :: es, done => do
    let l ← f.location e.target
    if l.isLoopHead then f.visitTargets visit path es done
    else if path.contains e.target then throw (.malformed f.name (.uncutCycle e.target))
    else if done.contains e.target then f.visitTargets visit path es done
    else f.visitTargets visit path es (← visit done e.target)

/-- Visits a location and all that is reached from it without passing a loop head, where `path` are
the locations being visited. A path is never longer than the number of locations. -/
def visit (f : Procedure) :
    (fuel : Nat) → (path done : List Nat) → (id : Nat) → Except Fault (List Nat)
  | 0, _, _, id => .error (.malformed f.name (.uncutCycle id))
  | fuel + 1, path, done, id => do
    let es ← f.edges id
    let done' ← f.visitTargets (fun d t => f.visit fuel (id :: path) d t) (id :: path) es done
    return id :: done'

/-- Visits the locations from the given list that are no loop heads and not done. -/
def visitRoots (f : Procedure) : List Nat → (done : List Nat) → Except Fault Unit
  | [], _ => .ok ()
  | id :: ids, done => do
    let l ← f.location id
    if l.isLoopHead || done.contains id then f.visitRoots ids done
    else f.visitRoots ids (← f.visit f.locations.length [] done id)

/-- Every cycle passes a loop head. -/
def checkCycles (f : Procedure) : Except Fault Unit :=
  f.visitRoots (List.range f.locations.length) []

end Procedure

namespace Program

def checkProcedure (p : Program) (f : Procedure) : Except Fault Unit := do
  if !(← f.location f.entry).isEntry then throw (.malformed f.name (.notEntry f.entry))
  if !(← f.location f.exit).isExit then throw (.malformed f.name (.notExit f.exit))
  p.checkLocations f 0 f.locations
  f.checkCycles

/-- Checks procedures whose names have to differ from each other and from those of `seen`. -/
def checkProcedures (p : Program) : (seen : List String) → List Procedure → Except Fault Unit
  | _, [] => .ok ()
  | seen, f :: fs => do
    if seen.contains f.name then throw (.malformed f.name .duplicateName)
    p.checkProcedure f
    p.checkProcedures (f.name :: seen) fs

/-- Succeeds for well-formed programs. -/
def validate (p : Program) : Except Fault Unit := p.checkProcedures [] p.procedures

end Program

end Cutpoint
