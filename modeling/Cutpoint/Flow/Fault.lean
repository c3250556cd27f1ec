import Cutpoint.Solver.Basic

/-!
# Faults

What stops a verification before there is a verdict. A specification that does not hold is no fault.
-/

set_option autoImplicit false

namespace Cutpoint

/-- The text of a location's number. -/
def locationText (id : Nat) : String := "L" ++ natText id

/-- The text of a list of locations. -/
def locationsText (ids : List Nat) : String := "[" ++ commaList (ids.map locationText) ++ "]"

/-- Two things that should have the same number of parts. -/
inductive Mismatch where
  /-- A call passes another number of arguments than the callee has parameters. -/
  | arguments (callee : String) (passed expected : Nat)
  /-- A call binds another number of results than the callee returns. -/
  | results (callee : String) (bound returned : Nat)
  /-- The ranking functions at the end of a path are not as many as at its start. -/
  | rankings (path : List Nat) (exit entry : Nat)
  deriving DecidableEq, Inhabited

namespace Mismatch

def message : Mismatch → String
  | arguments g n m =>
    "call to `" ++ g ++ "` passes " ++ natText n ++ " arguments, expected " ++ natText m
  | results g n m =>
    "call to `" ++ g ++ "` binds " ++ natText n ++ " results, callee returns " ++ natText m
  | rankings p n m =>
    "path " ++ locationsText p ++ " compares " ++ natText n ++
      " ranking functions against " ++ natText m

end Mismatch

/-- What is wrong with a graph. -/
inductive Malformation where
  | noLocation (id : Nat)
  | notEntry (id : Nat)
  | notExit (id : Nat)
  | secondEntry (id : Nat)
  | secondExit (id : Nat)
  | duplicateName
  /-- A cycle that passes no loop head. -/
  | uncutCycle (id : Nat)
  /-- The edge of a path that is not there. -/
  | noEdge (source index : Nat)
  /-- An edge that was added between locations that are not both there. -/
  | danglingEdge (source target : Nat)
  | noEntry
  | noExit
  deriving DecidableEq, Inhabited

namespace Malformation

def message : Malformation → String
  | noLocation i => "no location " ++ locationText i
  | notEntry i => locationText i ++ " is not an entry location"
  | notExit i => locationText i ++ " is not an exit location"
  | secondEntry i => "second entry location " ++ locationText i
  | secondExit i => "second exit location " ++ locationText i
  | duplicateName => "duplicate function name"
  | uncutCycle i => "cycle through " ++ locationText i ++ " contains no loop head"
  | noEdge s i => locationText s ++ " has no edge " ++ natText i
  | danglingEdge s t =>
    "edge " ++ locationText s ++ " -> " ++ locationText t ++ " names a location that does not exist"
  | noEntry => "no entry location"
  | noExit => "no exit location"

end Malformation

inductive Fault where
  | mismatch (procedure : String) (cause : Mismatch)
  | malformed (procedure : String) (cause : Malformation)
  | unknownProcedure (name : String)
  | solver (cause : SolverError)
  deriving Inhabited

namespace Fault

/-- The procedure that is at fault. -/
def procedure? : Fault → Option String
  | mismatch f _ => some f
  | malformed f _ => some f
  | unknownProcedure _ => none
  | solver _ => none

def message : Fault → String
  | mismatch f c => "Structural mismatch in `" ++ f ++ "`: " ++ c.message
  | malformed f c => "Malformed CFG in `" ++ f ++ "`: " ++ c.message
  | unknownProcedure g => "Unknown function `" ++ g ++ "`"
  | solver e => "Solver error: " ++ e.message

end Fault

end Cutpoint
