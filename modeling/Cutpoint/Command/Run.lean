import Cutpoint.Command.Basic
import Cutpoint.Flow.Json
import Cutpoint.Smt.Script

/-!
# Running commands

`respond` gives what a command line prints and its exit status: 0 for a valid program, 1 for an
invalid one, 2 if it is not known and for wrong usage, 3 for an error. Printing goes on until an
error occurs.
-/

set_option autoImplicit false

namespace Cutpoint.Command

variable {σ : Type}

/-- Where a command runs: programs and files. -/
structure Host (σ : Type) extends Runner σ where
  /-- The content of a file. -/
  read : String → Except FileError String

/-- The host with the files of a place; `run` is what its programs do. -/
def Host.ofPlace (p : Place) (run : (args : List String) → (script : String) → σ → Reply × σ) :
    Host σ where
  present := p.holds
  run path args script st :=
    match p.start path with
    | .error e => (.error e, st)
    | .ok () => let (reply, st') := run args script st; (.ok reply, st')
  read := p.read

inductive Error where
  /-- The file of the program cannot be read. -/
  | file (cause : FileError)
  /-- The file of the program does not hold one. -/
  | program
  /-- The file of the settings cannot be read. -/
  | settingsFile (name : String) (cause : FileError)
  | settings (cause : SettingsError)
  | encoding (cause : Smt.EncodeError)
  | fault (cause : Fault)
  deriving Inhabited

def Error.message : Error → String
  | file e => e.message
  | program => "IR error: not a program"
  | settingsFile name e => "IO error: " ++ name ++ ": " ++ e.message
  | settings e => e.message
  | encoding e => (SolverError.encoding e).message
  | fault e => e.message

structure Outcome where
  exit : Nat
  output : String := ""
  error : Option Error := none
  deriving Inhabited

namespace Outcome

def failed (e : Error) (output : String := "") : Outcome := ⟨3, output, some e⟩

/-- Puts output in front. -/
def after (output : String) (o : Outcome) : Outcome := { o with output := output ++ o.output }

end Outcome

/-! ## Files -/

/-- The settings that are read if no other file is named. -/
def settingsFile : String := "hoare.toml"

def loadProgram (h : Host σ) (file : String) : Except Error Program :=
  match h.read file with
  | .error e => .error (.file e)
  | .ok text =>
    match Program.ofText? text with
    | some p => .ok p
    | none => .error .program

def loadSettings (h : Host σ) (file : String) : Except Error Settings :=
  match h.read file with
  | .error e => .error (.settingsFile file e)
  | .ok text => (Settings.ofToml text).mapError .settings

/-- The settings of a run: from the named file, else from `settingsFile` if it is there; the options
come on top. -/
def settings (h : Host σ) (o : Options) : Except Error Settings :=
  let loaded :=
    match o.config with
    | some file => loadSettings h file
    | none => if h.present settingsFile then loadSettings h settingsFile else .ok {}
  loaded.map o.apply

/-! ## Actions -/

/-- The exit status that tells a verdict. -/
def exitStatus : Verdict → Nat
  | .valid => 0
  | .invalid _ => 1
  | .unknown _ => 2

def verify (h : Host σ) (o : Options) (p : Program) (st : σ) : Outcome × σ :=
  match settings h o with
  | .error e => (.failed e, st)
  | .ok s =>
    match s.engine h.toRunner with
    | .error e => (.failed (.fault (.solver e)), st)
    | .ok g =>
      match g.verify h.toRunner p st with
      | (.error e, st') => (.failed (.fault e), st')
      | (.ok v, st') =>
        (⟨exitStatus v, v.text ++ "\nresult: " ++ intText v.code ++ "\n", none⟩, st')

/-- Prints the paths of procedures. -/
def listPaths : List Procedure → Outcome
  | [] => ⟨0, "", none⟩
  | f :: fs =>
    match f.basicPaths with
    | .error e => .failed (.fault e) (f.name ++ ":\n")
    | .ok paths =>
      (listPaths fs).after (f.name ++ ":\n" ++
        String.join (paths.map fun p => "  " ++ p.text ++ "\n"))

def paths (p : Program) : Outcome :=
  match p.validate with
  | .error e => .failed (.fault e)
  | .ok () => listPaths p.procedures

/-- Prints obligations, each by `body`. -/
def listObligations (body : Obligation → Except Error String) : List Obligation → Outcome
  | [] => ⟨0, "", none⟩
  | o :: os =>
    let title := "; " ++ o.kind.text ++ " of `" ++ o.procedure ++ "` on " ++ o.path.text ++ "\n"
    match body o with
    | .error e => .failed e title
    | .ok text => (listObligations body os).after (title ++ text)

def conditions (smt : Bool) (p : Program) : Outcome :=
  let printed : Except Error Outcome := do
    let theory ← if smt then (p.predicates.foldlM Smt.Theory.define {}).mapError .encoding
      else .ok {}
    let os ← p.obligations.mapError .fault
    return listObligations (fun o => if smt then (theory.query o.formula).mapError .encoding
      else .ok (o.formula.text ++ "\n")) os
  match printed with
  | .error e => .failed e
  | .ok outcome => outcome

/-! ## Commands -/

def run (h : Host σ) (i : Invocation) (st : σ) : Outcome × σ :=
  match loadProgram h i.file with
  | .error e => (.failed e, st)
  | .ok p =>
    match i.action with
    | .verify => verify h i.options p st
    | .paths => (paths p, st)
    | .conditions smt => (conditions smt p, st)

/-- What a command line does. -/
def respond (h : Host σ) (args : List String) (st : σ) : Outcome × σ :=
  match Parsed.of args with
  | .misuse => (⟨2, "", none⟩, st)
  | .version => (⟨0, "hoare 0.1.0\n", none⟩, st)
  | .run i => run h i st

end Cutpoint.Command
