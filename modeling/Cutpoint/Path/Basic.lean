import Cutpoint.Flow.Basic

/-!
# Paths

A path is a start and the edges that are taken one after the other. Each step keeps the number of
its edge, so that edges between the same locations stay apart.
-/

set_option autoImplicit false

namespace Cutpoint

structure BasicPath where
  start : Nat
  /-- For each edge its number among the edges of its source, and its target. -/
  steps : List (Nat × Nat) := []
  deriving DecidableEq, Inhabited

namespace BasicPath

/-- The path with one more step. -/
def extend (p : BasicPath) (index target : Nat) : BasicPath :=
  { p with steps := p.steps ++ [(index, target)] }

/-- The locations on the path, the start included. -/
def locations (p : BasicPath) : List Nat := p.start :: p.steps.map Prod.snd

/-- The last location. -/
def finish (p : BasicPath) : Nat := (p.steps.getLast?.map Prod.snd).getD p.start

def text (p : BasicPath) : String := locationsText p.locations

/-- The edges of the given steps from a location on. -/
def edgesFrom (f : Procedure) : (source : Nat) → List (Nat × Nat) → Except Fault (List Edge)
  | _, [] => .ok []
  | source, (index, target) :: steps => do
    let es ← f.edges source
    match es[index]? with
    | none => throw (.malformed f.name (.noEdge source index))
    | some e => return e :: (← edgesFrom f target steps)

/-- The edges on the path. -/
def edges (p : BasicPath) (f : Procedure) : Except Fault (List Edge) := edgesFrom f p.start p.steps

end BasicPath

end Cutpoint
