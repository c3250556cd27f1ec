import Cutpoint.Files.Basic
import Cutpoint.Smt.Script
import Cutpoint.Solver.Reply

/-!
# External solvers

An external solver is a program that reads a script and prints a reply. How programs are run is left
to a `Runner`, which may keep a state of its own.
-/

set_option autoImplicit false

namespace Cutpoint

/-- How programs are run. -/
structure Runner (σ : Type) where
  /-- Whether there is a program of this path. -/
  present : String → Bool
  /-- Runs a program on a script, if it can be started. -/
  run : (path : String) → (args : List String) → (script : String) → σ → Except FileError Reply × σ
  /-- The solver that is used if none is named. -/
  located : Option String := none

/-- The program to run and its options. -/
structure External where
  path : String
  /-- The time for each question in milliseconds; none if it is 0. -/
  timeoutMs : Nat := 0
  extraArgs : List String := []
  deriving DecidableEq, Inhabited

namespace External

variable {σ : Type}

/-- The arguments of a run: read from standard input, stop in time, and whatever else is wanted. -/
def args (x : External) : List String :=
  "-in" :: ((if x.timeoutMs = 0 then [] else ["-t:" ++ natText x.timeoutMs]) ++ x.extraArgs)

/-- Whether the program is there. -/
def validate (x : External) (r : Runner σ) : Except SolverError Unit :=
  if r.present x.path then .ok () else .error (.notFound x.path)

/-- Runs the program on a script. -/
def run (x : External) (r : Runner σ) (script : String) (s : σ) : Except SolverError Answer × σ :=
  match x.validate r with
  | .error e => (.error e, s)
  | .ok () =>
    match r.run x.path x.args script s with
    | (.error e, s') => (.error (.process ("failed to start z3: " ++ e.message)), s')
    | (.ok reply, s') => (reply.answer, s')

/-- The solver that writes a script for each question. Its state is the theory of the predicates and
the state of the runner. -/
def solver (x : External) (r : Runner σ) : Solver (Smt.Theory × σ) where
  define p st :=
    match st.1.define p with
    | .error e => (.error (.encoding e), st)
    | .ok th => (.ok (), (th, st.2))
  check e st :=
    match st.1.query e with
    | .error err => (.error (.encoding err), st)
    | .ok script =>
      match x.run r script st.2 with
      | (.error err, s') => (.error err, (st.1, s'))
      | (.ok answer, s') => (.ok answer.validity, (st.1, s'))

end External

end Cutpoint
