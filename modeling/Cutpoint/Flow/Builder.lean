import Cutpoint.Flow.Basic

/-!
# Building procedures

A `Builder` collects locations, edges, parameters and results. Locations are numbered in the order
in which they are added. An edge may be added before its target, but not before its source.
-/

set_option autoImplicit false

namespace Cutpoint

structure Builder where
  name : String
  parameters : List Var := []
  results : List Var := []
  /-- The latest entry. -/
  entry : Option Nat := none
  /-- The latest exit. -/
  exit : Option Nat := none
  locations : List Location := []
  /-- The first edge whose source was not there. -/
  dangling : Option (Nat × Nat) := none
  deriving Inhabited

namespace Builder

/-- Adds a location and returns its number. -/
def add (b : Builder) (kind : Location.Kind) : Nat × Builder :=
  (b.locations.length, { b with locations := b.locations ++ [{ kind }] })

def addEntry (b : Builder) (conditions rankings : List Expr) : Nat × Builder :=
  let (id, b') := b.add (.entry conditions rankings)
  (id, { b' with entry := some id })

def addExit (b : Builder) (conditions : List Expr) : Nat × Builder :=
  let (id, b') := b.add (.exit conditions)
  (id, { b' with exit := some id })

def addLoopHead (b : Builder) (invariants rankings : List Expr) : Nat × Builder :=
  b.add (.loopHead invariants rankings)

def addPlain (b : Builder) : Nat × Builder := b.add .plain

/-- Adds an edge after the others of its source. -/
def addEdge (b : Builder) (source target : Nat) (s : Statement) : Builder :=
  if source < b.locations.length then
    { b with locations := b.locations.modify source fun l =>
      { l with edges := l.edges ++ [⟨target, s⟩] } }
  else { b with dangling := b.dangling <|> some (source, target) }

def addParameter (b : Builder) (v : Var) : Builder := { b with parameters := b.parameters ++ [v] }

def addResult (b : Builder) (v : Var) : Builder := { b with results := b.results ++ [v] }

/-- The first edge, from location `id` on, whose target is not below `bound`. -/
def findDangling (bound : Nat) : (id : Nat) → List Location → Option (Nat × Nat)
  | _, [] => none
  | id, l :: ls =>
    match l.edges.find? fun e => bound ≤ e.target with
    | some e => some (id, e.target)
    | none => findDangling bound (id + 1) ls

/-- The procedure that was built. -/
def build (b : Builder) : Except Fault Procedure :=
  match b.dangling <|> findDangling b.locations.length 0 b.locations with
  | some (s, t) => .error (.malformed b.name (.danglingEdge s t))
  | none =>
    match b.entry, b.exit with
    | none, _ => .error (.malformed b.name .noEntry)
    | some _, none => .error (.malformed b.name .noExit)
    | some entry, some exit => .ok ⟨b.name, b.parameters, b.results, entry, exit, b.locations⟩

end Builder

end Cutpoint
