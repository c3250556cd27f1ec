import Cutpoint.Settings
import Cutpoint.Basic

/-!
# The command line

`Parsed.of` reads the arguments from left to right, and the first word that cannot be used decides.

* Options stand before or after the name of the action. On each side an option is given at most
  once; what stands after wins.
* The value of an option follows an equals sign or is the next word, which then does not start with
  a dash.
* After the word `--` there are only file names.
-/

set_option autoImplicit false

namespace Cutpoint.Command

/-- What is to be done with a program. -/
inductive Action where
  | verify
  | paths
  /-- Print the obligations, as scripts for a solver if `smt` is set. -/
  | conditions (smt : Bool)
  deriving DecidableEq, Inhabited

def Action.ofName? (s : String) : Option Action :=
  if s = "verify" then some verify
  else if s = "paths" then some paths
  else if s = "vcs" then some (conditions false)
  else none

/-- The options that take a value. -/
structure Options where
  config : Option String := none
  backend : Option Backend := none
  solverPath : Option String := none
  timeoutMs : Option Nat := none
  deriving DecidableEq, Inhabited

structure Invocation where
  options : Options
  action : Action
  file : String
  deriving DecidableEq, Inhabited

inductive Parsed where
  | run (invocation : Invocation)
  | version
  | misuse
  deriving DecidableEq, Inhabited

/-! ## Words -/

/-- A word of the command line. -/
inductive Word where
  | plain
  /-- Two dashes and nothing else. -/
  | dashes
  /-- An option of one letter, or several of them. -/
  | letters (cs : List Char)
  | option (name : String) (value : Option String)
  deriving DecidableEq, Inhabited

def Word.of (s : String) : Word :=
  match s.toList with
  | '-' :: '-' :: [] => .dashes
  | '-' :: '-' :: cs =>
    match cs.dropWhile (· ≠ '=') with
    | [] => .option (String.ofList cs) none
    | _ :: value => .option (String.ofList (cs.takeWhile (· ≠ '='))) (some (String.ofList value))
  | '-' :: c :: cs => .letters (c :: cs)
  | _ => .plain

/-- A number of 64 bits without a sign, in decimal; a plus in front is allowed. -/
def number? (s : String) : Option Nat :=
  let ds := match s.toList with
    | '+' :: ds => ds
    | ds => ds
  if !ds.isEmpty && ds.all Json.isDigit && Word64.Unsigned (Json.digitsValue 0 ds) then
    some (Json.digitsValue 0 ds) else none

def nonempty? (s : String) : Option String := if s.isEmpty then none else some s

namespace Options

/-- Gives an option its value, if it has none. -/
def set? (o : Options) (name value : String) : Option Options :=
  if name = "config" && o.config.isNone then
    (nonempty? value).map fun v => { o with config := some v }
  else if name = "solver" && o.backend.isNone then
    (Backend.ofWord? value).map fun v => { o with backend := some v }
  else if name = "z3" && o.solverPath.isNone then
    (nonempty? value).map fun v => { o with solverPath := some v }
  else if name = "timeout" && o.timeoutMs.isNone then
    (number? value).map fun v => { o with timeoutMs := some v }
  else none

/-- Gives an option the next word as its value; also the words that are left. -/
def setNext? (o : Options) (name : String) : List String → Option (Options × List String)
  | [] => none
  | value :: rest =>
    if Word.of value = .plain then (o.set? name value).map fun o' => (o', rest) else none

/-- Options on top of others. -/
def atop (inner outer : Options) : Options where
  config := inner.config <|> outer.config
  backend := inner.backend <|> outer.backend
  solverPath := inner.solverPath <|> outer.solverPath
  timeoutMs := inner.timeoutMs <|> outer.timeoutMs

/-- Settings with the options put in. -/
def apply (o : Options) (s : Settings) : Settings :=
  { s with
    backend := o.backend.getD s.backend
    path := o.solverPath <|> s.path
    timeoutMs := o.timeoutMs.getD s.timeoutMs }

end Options

/-! ## After the name of the action -/

/-- What has been read after the name of the action. -/
structure Rest where
  action : Action
  options : Options := {}
  file : Option String := none
  deriving DecidableEq, Inhabited

namespace Rest

def setFile? (r : Rest) (s : String) : Option Rest :=
  if r.file.isSome then none else (nonempty? s).map fun f => { r with file := some f }

/-- Asks for scripts, which only printing the obligations can give, and only once. -/
def setSmt? (r : Rest) : Option Rest :=
  if r.action = .conditions false then some { r with action := .conditions true } else none

/-- Reads words; every word takes a step. -/
def read? : (steps : Nat) → Rest → List String → Option Rest
  | _, r, [] => some r
  | 0, _, _ => none
  | steps + 1, r, s :: rest =>
    match Word.of s with
    | .plain => do read? steps (← r.setFile? s) rest
    | .dashes => rest.foldlM setFile? r
    | .letters cs => if cs.all (· = 'v') then read? steps r rest else none
    | .option name (some value) => do
      let o ← r.options.set? name value
      read? steps { r with options := o } rest
    | .option name none =>
      if name = "verbose" then read? steps r rest
      else if name = "smt" then do read? steps (← r.setSmt?) rest
      else do
        let (o, rest) ← r.options.setNext? name rest
        read? steps { r with options := o } rest

/-- The invocation, if a file was named. -/
def invocation? (r : Rest) (outer : Options) : Option Invocation :=
  r.file.map fun f => ⟨r.options.atop outer, r.action, f⟩

end Rest

/-! ## All words -/

namespace Parsed

def read : (steps : Nat) → Options → List String → Parsed
  | 0, _, _ => misuse
  | _, _, [] => misuse
  | steps + 1, o, s :: rest =>
    match Word.of s with
    | .plain =>
      let parsed := do
        let action ← Action.ofName? s
        (← Rest.read? rest.length { action } rest).invocation? o
      parsed.elim misuse run
    | .dashes => misuse
    | .letters cs =>
      match cs.dropWhile (· = 'v') with
      | [] => read steps o rest
      | c :: _ => if c = 'V' then version else misuse
    | .option name (some value) =>
      match o.set? name value with
      | some o' => read steps o' rest
      | none => misuse
    | .option name none =>
      if name = "verbose" then read steps o rest
      else if name = "version" then version
      else
        match o.setNext? name rest with
        | some (o', rest') => read steps o' rest'
        | none => misuse

/-- What the arguments ask for. -/
def of (args : List String) : Parsed := read args.length {} args

end Parsed

end Cutpoint.Command
