import Cutpoint.Path.Basic

/-!
# Basic paths

A procedure is cut at its call sites, its loop heads and its exit. `Procedure.basicPaths` lists the
paths between these points that can be reached from the entry.

At a location the path that led there is treated as follows.

* At a location with a call among its edges the path ends, and every edge starts a new one.
* At the exit the path ends.
* At a loop head the path ends; on the first arrival on the way from the entry every edge starts a
  new one.
* Anywhere else the path goes on along every edge.

A loop head with a call counts as both. Later edges are followed before earlier ones, and a path
that is found again is dropped.
-/

set_option autoImplicit false

namespace Cutpoint

/-- The list without the members that stand earlier in it. -/
def distinct {α : Type} [DecidableEq α] : List α → List α
  | [] => []
  | a :: as => a :: (distinct as).filter (· ≠ a)

namespace Procedure

/-- The results of all members, from the last to the first, joined. -/
def gather {α β : Type} (f : α → Except Fault (List β)) : List α → Except Fault (List β)
  | [] => .ok []
  | a :: as => do
    let later ← gather f as
    return later ++ (← f a)

/-- The paths found from location `id` on, which `path` leads to; `memory` holds the loop heads
passed on the way from the entry. Between two loop heads that are not in memory no location is
passed twice, so that `fuel` need not exceed the product of both numbers. -/
def explore (f : Procedure) : (fuel : Nat) → (id : Nat) → (path : BasicPath) → (memory : List Nat) →
    Except Fault (List BasicPath)
  | 0, id, _, _ => .error (.malformed f.name (.uncutCycle id))
  | fuel + 1, id, path, memory => do
    let l ← f.location id
    let es := (← f.edges id).zipIdx
    let known := memory.contains id
    let restart := fun (memory : List Nat) =>
      gather (fun (e, i) => f.explore fuel e.target ⟨id, [(i, e.target)]⟩ memory) es
    if l.hasCall then
      if l.isLoopHead && known then return [path]
      else return path :: (← restart (if l.isLoopHead then id :: memory else memory))
    else if id = f.exit then return [path]
    else if l.isLoopHead then
      if known then return [path] else return path :: (← restart (id :: memory))
    else gather (fun (e, i) => f.explore fuel e.target (path.extend i e.target) memory) es

/-- A number that no way through the graph exceeds on which every cycle passes a loop head that is
not in memory. -/
def exploreFuel (f : Procedure) : Nat := (f.locations.length + 1) * (f.locations.length + 1)

/-- The basic paths of a procedure, in the order in which they are found. -/
def basicPaths (f : Procedure) : Except Fault (List BasicPath) :=
  return distinct (← f.explore f.exploreFuel f.entry ⟨f.entry, []⟩ [])

end Procedure

end Cutpoint
