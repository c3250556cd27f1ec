import Cutpoint.Command.Run

/-!
# The program

Files are read before the command runs. Programs are not started: an external solver that is there
fails with a message.
-/

set_option autoImplicit false

namespace Cutpoint.Command

/-- Why a file cannot be used. -/
def fileError : IO.Error → FileError
  | .noFileOrDirectory .. => .noEntry
  | .permissionDenied .. => .denied
  | e => .other (toString e)

/-- What is known of a file. -/
abbrev Known := String × Except FileError String

def readFile (name : String) : IO Known :=
  try
    return (name, .ok (← IO.FS.readFile name))
  catch e => return (name, .error (fileError e))

/-- Looks whether a program is there, as a file without content. -/
def probe (name : String) : IO Known :=
  try
    let _ ← IO.FS.Handle.mk name .read
    return (name, .ok "")
  catch e => return (name, .error (fileError e))

/-- The host that knows the given files. -/
def hostOf (files : List Known) : Host Unit where
  present name := (files.lookup name).any fun r => r.isOk
  run _ _ _ st := (.error (.other "external programs are not supported"), st)
  read name := (files.lookup name).getD (.error .noEntry)

/-- The files that an invocation may read. -/
def Invocation.files (i : Invocation) : List String := [i.file, i.options.config.getD settingsFile]

/-- Reads the files of an invocation, and the solver that its settings name. -/
def host : Parsed → IO (Host Unit)
  | .run i => do
    let files ← i.files.mapM readFile
    match (settings (hostOf files) i.options).map Settings.path with
    | .ok (some path) => return hostOf (files ++ [← probe path])
    | _ => return hostOf files
  | _ => return hostOf []

/-- Runs a command line and gives its exit status. -/
def execute (args : List String) : IO UInt32 := do
  let parsed := Parsed.of args
  let (outcome, _) := respond (← host parsed) args ()
  if parsed = .misuse then IO.eprintln "usage: hoare [OPTIONS] <verify|paths|vcs> [OPTIONS] FILE"
  IO.print outcome.output
  if let some e := outcome.error then IO.eprintln ("Error: " ++ e.message)
  return outcome.exit.toUInt32

end Cutpoint.Command

def main (args : List String) : IO UInt32 := Cutpoint.Command.execute args
