import Cutpoint.Json.Decode
import Cutpoint.Json.Printer
import Cutpoint.Solver.Bounded
import Cutpoint.Solver.External
import Cutpoint.Toml.Printer
import Cutpoint.Toml.Reader
import Cutpoint.Verdict
import Cutpoint.Basic

/-!
# Settings

Which solver to use and how. Settings are read from TOML or JSON, where every field may be left out,
and `Settings.validate` keeps those whose integer range can be searched at all. `Settings.engine`
makes the solver.
-/

set_option autoImplicit false

namespace Cutpoint

inductive Backend where
  /-- An external solver. -/
  | z3
  /-- Search among small integers. -/
  | bounded
  deriving DecidableEq, Inhabited

namespace Backend

def text : Backend → String
  | z3 => "z3"
  | bounded => "bounded"

def ofName? (s : String) : Option Backend :=
  if s = "z3" then some z3 else if s = "bounded" then some bounded else none

/-- Reads a name in any case. ASCII is enough: no other letter has one of these letters as its lower
case. -/
def ofWord? (s : String) : Option Backend := ofName? (String.ofList (s.toList.map Char.toLower))

def unknownMessage (s : String) : String :=
  "unknown solver backend: " ++ s ++ " (expected z3 or bounded)"

end Backend

structure Settings where
  backend : Backend := .z3
  /-- The external solver; to be looked for if there is none. -/
  path : Option String := none
  /-- The time for each question in milliseconds; none if it is 0. -/
  timeoutMs : Nat := 10000
  extraArgs : List String := []
  /-- The search is among the integers from `-bound` to `bound`. -/
  bound : Int := 16
  maxAssignments : Nat := Bounded.defaultCap
  deriving DecidableEq, Inhabited

inductive SettingsError where
  | unreadable
  | negativeBound (bound : Int)
  | noAssignments
  /-- There are more integers in the range than assignments may be tried. -/
  | rangeTooLarge (bound : Int) (maxAssignments : Nat)
  /-- A number is too large to be written as TOML. -/
  | unwritable
  deriving DecidableEq, Inhabited

def SettingsError.message : SettingsError → String
  | unreadable => "Config error: TOML"
  | negativeBound b => "Config error: solver.bound must be non-negative, got " ++ intText b
  | noAssignments => "Config error: solver.max_assignments must be > 0"
  | rangeTooLarge b m =>
    "Config error: solver.bound " ++ intText b ++
      " gives more values than solver.max_assignments (" ++ natText m ++ ")"
  | unwritable => "Config error: out-of-range value for u64 type"

namespace Settings

def validate (s : Settings) : Except SettingsError Unit :=
  if s.bound < 0 then .error (.negativeBound s.bound)
  else if s.maxAssignments = 0 then .error .noAssignments
  else
    match Bounded.domainSize? s.bound with
    | some size =>
      if size ≤ s.maxAssignments then .ok () else .error (.rangeTooLarge s.bound s.maxAssignments)
    | none => .error (.rangeTooLarge s.bound s.maxAssignments)

/-! ## Reading -/

/-- Reads a field that may be left out. -/
def orElse? {α : Type} (default : α) (read : Json → Option α) : Option Json → Option α
  | none => some default
  | some j => read j

/-- What depends on the language in which settings are written. -/
structure Dialect where
  /-- What stands for no content. -/
  isNothing : Json → Bool
  /-- Whether the items of an array beyond the fields of a record are passed over. -/
  passesSurplus : Bool

/-- Settings in JSON. -/
def Dialect.json : Dialect where
  isNothing
    | .null => true
    | _ => false
  passesSurplus := false

/-- Settings in TOML, which has no `null`. -/
def Dialect.toml : Dialect where
  isNothing
    | .obj ms => ms.isEmpty
    | .arr js => js.isEmpty
    | _ => false
  passesSurplus := true

/-- The values of the fields of a record. -/
def Dialect.fields? (d : Dialect) (names : List String) : Json → Option (List (Option Json))
  | .arr js => (Json.arr (if d.passesSurplus then js.take names.length else js)).fields? names
  | j => j.fields? names

/-- Reads a backend: its name, or an object with its name and no content. -/
def backend? (d : Dialect) : Json → Option Backend
  | .str s => s.bind Backend.ofName?
  | .obj [(s, j)] => if d.isNothing j then s.bind Backend.ofName? else none
  | _ => none

def path? : Json → Option (Option String)
  | .null => some none
  | j => j.text?.map some

/-- Reads the section on the solver. -/
def solver? (d : Dialect) (j : Json) : Option Settings := do
  let s : Settings := {}
  match ← d.fields? ["backend", "path", "timeout_ms", "extra_args", "bound",
    "max_assignments"] j with
  | [backend, path, timeout, extra, bound, cap] =>
    return {
      backend := ← orElse? s.backend (backend? d) backend
      path := ← orElse? s.path path? path
      timeoutMs := ← orElse? s.timeoutMs Json.unsigned64? timeout
      extraArgs := ← orElse? s.extraArgs (Json.list? Json.text?) extra
      bound := ← orElse? s.bound Json.signed? bound
      maxAssignments := ← orElse? s.maxAssignments Json.unsigned64? cap }
  | _ => none

/-- Reads settings in a dialect. -/
def read? (d : Dialect) (j : Json) : Option Settings := do
  match ← d.fields? ["solver"] j with
  | [solver] => orElse? {} (solver? d) solver
  | _ => none

def ofJson? : Json → Option Settings := read? .json

/-- The settings that a TOML text stands for, if they pass `validate`. -/
def ofToml (text : String) : Except SettingsError Settings :=
  match (Toml.parse? text).bind fun t => read? .toml t.toJson with
  | none => .error .unreadable
  | some s => s.validate.map fun _ => s

/-! ## Writing -/

def toJson (s : Settings) : Json :=
  .object [("solver", .object
    [("backend", .text s.backend.text), ("path", s.path.elim .null .text),
     ("timeout_ms", .int s.timeoutMs),
     ("extra_args", .arr (s.extraArgs.map .text)), ("bound", .int s.bound),
     ("max_assignments", .int s.maxAssignments)])]

def toToml (s : Settings) : Except SettingsError String :=
  if Word64.Signed s.timeoutMs && Word64.Signed s.maxAssignments then
    .ok ("[solver]\n" ++
      "backend = " ++ Toml.stringText s.backend.text ++ "\n" ++
      s.path.elim "" (fun p => "path = " ++ Toml.stringText p ++ "\n") ++
      "timeout_ms = " ++ natText s.timeoutMs ++ "\n" ++
      "extra_args = " ++ Toml.arrayText s.extraArgs ++ "\n" ++
      "bound = " ++ intText s.bound ++ "\n" ++
      "max_assignments = " ++ natText s.maxAssignments ++ "\n")
  else .error .unwritable

end Settings

/-! ## Solvers -/

/-- A solver that is ready to be asked. -/
inductive Engine where
  | external (program : External)
  | bounded (search : Bounded)

variable {σ : Type}

/-- Makes the solver of the settings, if it is there. -/
def Settings.engine (s : Settings) (r : Runner σ) : Except SolverError Engine :=
  match s.backend with
  | .bounded => .ok (.bounded (.ofBound s.bound s.maxAssignments))
  | .z3 =>
    match s.path <|> r.located with
    | none => .error (.notFound "z3")
    | some path =>
      let x : External := ⟨path, s.timeoutMs, s.extraArgs⟩
      (x.validate r).map fun _ => .external x

namespace Engine

/-- Asks about one formula, without predicates. -/
def check (g : Engine) (r : Runner σ) (e : Expr) (st : σ) : Except SolverError Validity × σ :=
  match g with
  | external x => let (res, _, st') := (x.solver r).check e ({}, st); (res, st')
  | bounded b => ((Bounded.solver.check e b).1, st)

/-- Verifies a program. -/
def verify (g : Engine) (r : Runner σ) (p : Program) (st : σ) : Except Fault Verdict × σ :=
  match g with
  | external x => let (res, _, st') := (x.solver r).verify p ({}, st); (res, st')
  | bounded b => ((Bounded.solver.verify p b).1, st)

end Engine

end Cutpoint
