import Cutpoint.Expr.Subst
import Cutpoint.SExp
import Cutpoint.Smt.Encode

/-!
# Solvers

A solver answers whether a formula holds for every value of its free variables. `Solver σ` is a
solver with a state of type `σ`: every question may change the state, also one that ends in an
error.
-/

set_option autoImplicit false

namespace Cutpoint

/-! ## Answers -/

/-- Values of variables, as text, that make a formula false. -/
structure Counterexample where
  assignments : List (String × String)
  deriving DecidableEq, Inhabited

namespace Counterexample

/-- The value of the first variable of the given name. -/
def get? (cex : Counterexample) (name : String) : Option String :=
  (cex.assignments.find? fun p => p.1 = name).map Prod.snd

def isEmpty (cex : Counterexample) : Bool := cex.assignments.isEmpty

def text (cex : Counterexample) : String :=
  commaList (cex.assignments.map fun p => p.1 ++ " = " ++ p.2)

end Counterexample

inductive Validity where
  | valid
  | invalid (cex : Counterexample)
  | unknown (reason : String)
  deriving DecidableEq, Inhabited

namespace Validity

def isValid : Validity → Bool
  | valid => true
  | _ => false

end Validity

/-! ## Failures -/

/-- Why a solver's reply has no meaning. -/
inductive ReplyError where
  /-- Nothing was printed but the given complaints. -/
  | empty (complaints : String)
  /-- Nothing but comments was printed. -/
  | noItems
  | unreadable (cause : SExp.ReadError)
  /-- The reply does not start with a known word. -/
  | unexpected (text : String)
  deriving DecidableEq, Inhabited

def ReplyError.message : ReplyError → String
  | empty s => "empty solver output; stderr: " ++ s
  | noItems => "no s-expressions in output"
  | unreadable e => e.message
  | unexpected s => "unexpected solver output: " ++ s

inductive SolverError where
  | notFound (path : String)
  | process (message : String)
  | reply (cause : ReplyError)
  | encoding (cause : Smt.EncodeError)
  deriving Inhabited

def SolverError.message : SolverError → String
  | notFound p => "solver binary not found at: " ++ p
  | process m => "solver process error: " ++ m
  | reply e => "failed to parse solver output: " ++ e.message
  | encoding e => "encoding error: " ++ e.message

/-! ## Solvers -/

structure Solver (σ : Type) where
  /-- Makes a predicate known to later questions. -/
  define : Predicate → σ → Except SolverError Unit × σ
  /-- Asks whether a formula is valid. -/
  check : Expr → σ → Except SolverError Validity × σ

end Cutpoint
