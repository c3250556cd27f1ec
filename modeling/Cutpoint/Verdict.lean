import Cutpoint.Obligation

/-!
# Verdicts

`verify` asks a solver for the obligations of a program, one after the other.

* The first formula that is not valid ends the run, and so does a malformed ranking function, about
  which the solver is not asked.
* An unknown answer does not end the run, but if nothing is refuted, the first one makes the verdict
  unknown.
* The obligations of a path are made when it is reached, so that a fault of a later path does not
  hide a formula that is not valid.
-/

set_option autoImplicit false

namespace Cutpoint

/-- The obligation that does not hold. -/
structure Failure where
  procedure : String
  path : List Nat
  kind : Obligation.Kind
  formula : Expr
  /-- What the solver gave to refute the formula. -/
  counterexample : Option Counterexample
  deriving Inhabited

def Failure.text (f : Failure) : String :=
  f.kind.text ++ " fails in `" ++ f.procedure ++ "` on path " ++ locationsText f.path ++
    match f.counterexample with
    | some cex => if cex.isEmpty then "" else " with " ++ cex.text
    | none => ""

inductive Verdict where
  | valid
  | invalid (failure : Failure)
  | unknown (reason : String)
  deriving Inhabited

namespace Verdict

/-- 1 for valid, -1 for invalid, 0 for unknown. -/
def code : Verdict → Int
  | valid => 1
  | invalid _ => -1
  | unknown _ => 0

def text : Verdict → String
  | valid => "valid"
  | invalid f => "invalid: " ++ f.text
  | unknown r => "unknown: " ++ r

end Verdict

namespace Obligation

def failure (o : Obligation) (cex : Option Counterexample) : Failure :=
  ⟨o.procedure, o.path.locations, o.kind, o.formula, cex⟩

/-- The reason for an unknown verdict. -/
def doubt (o : Obligation) (reason : String) : String :=
  o.kind.text ++ " in `" ++ o.procedure ++ "` on " ++ o.path.text ++ ": " ++ reason

end Obligation

/-- How far a run has come: refuted, or going on with the first reason for doubt. -/
inductive Progress where
  | refuted (failure : Failure)
  | going (doubt : Option String)
  deriving Inhabited

def Progress.verdict : Progress → Verdict
  | refuted f => .invalid f
  | going none => .valid
  | going (some r) => .unknown r

namespace Solver

variable {σ : Type}

/-- Makes predicates known, in order. -/
def defineAll (s : Solver σ) : List Predicate → σ → Except Fault Unit × σ
  | [], st => (.ok (), st)
  | p :: ps, st =>
    match s.define p st with
    | (.error e, st') => (.error (.solver e), st')
    | (.ok (), st') => s.defineAll ps st'

/-- Asks for one obligation. -/
def discharge (s : Solver σ) (o : Obligation) (doubt : Option String)
    (st : σ) : Except Fault Progress × σ :=
  if o.kind = .malformedRanking then (.ok (.refuted (o.failure none)), st)
  else
    match s.check o.formula st with
    | (.error e, st') => (.error (.solver e), st')
    | (.ok .valid, st') => (.ok (.going doubt), st')
    | (.ok (.invalid cex), st') => (.ok (.refuted (o.failure (some cex))), st')
    | (.ok (.unknown r), st') => (.ok (.going (doubt <|> some (o.doubt r))), st')

/-- Asks for obligations, in order. -/
def dischargeAll (s : Solver σ) : List Obligation → Option String → σ → Except Fault Progress × σ
  | [], doubt, st => (.ok (.going doubt), st)
  | o :: os, doubt, st =>
    match s.discharge o doubt st with
    | (.ok (.going doubt'), st') => s.dischargeAll os doubt' st'
    | r => r

/-- Asks for the obligations of paths, in order. -/
def verifyPaths (s : Solver σ) (p : Program) (f : Procedure) :
    List BasicPath → Option String → σ → Except Fault Progress × σ
  | [], doubt, st => (.ok (.going doubt), st)
  | path :: paths, doubt, st =>
    match p.pathObligations f path with
    | .error e => (.error e, st)
    | .ok os =>
      match s.dischargeAll os doubt st with
      | (.ok (.going doubt'), st') => s.verifyPaths p f paths doubt' st'
      | r => r

/-- Asks for the obligations of procedures, in order. -/
def verifyProcedures (s : Solver σ) (p : Program) :
    List Procedure → Option String → σ → Except Fault Progress × σ
  | [], doubt, st => (.ok (.going doubt), st)
  | f :: fs, doubt, st =>
    match f.basicPaths with
    | .error e => (.error e, st)
    | .ok paths =>
      match s.verifyPaths p f paths doubt st with
      | (.ok (.going doubt'), st') => s.verifyProcedures p fs doubt' st'
      | r => r

/-- Verifies a program. -/
def verify (s : Solver σ) (p : Program) (st : σ) : Except Fault Verdict × σ :=
  match p.validate with
  | .error e => (.error e, st)
  | .ok () =>
    match s.defineAll p.predicates st with
    | (.error e, st') => (.error e, st')
    | (.ok (), st') =>
      match s.verifyProcedures p p.procedures none st' with
      | (.error e, st'') => (.error e, st'')
      | (.ok progress, st'') => (.ok progress.verdict, st'')

end Solver

end Cutpoint
