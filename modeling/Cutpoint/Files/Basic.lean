/-!
# Files and paths

A tree of files, and how paths lead through it.

* `Place.find` goes from directory to directory, one part of the path after the other. Empty parts
  and `.` stay, `..` goes up. The first part that leads nowhere decides which error there is.
* `Place.read` gives the text of a file; `Place.start` says whether a program can be started. A
  program that is named without a slash is not looked for in the place but among the installed ones,
  of which there are none.
-/

set_option autoImplicit false

namespace Cutpoint

/-- Why a file cannot be used. -/
inductive FileError where
  | noEntry
  | denied
  | notDirectory
  | isDirectory
  | nameTooLong
  | notText
  | other (text : String)
  deriving DecidableEq, Inhabited

def FileError.message : FileError → String
  | noEntry => "No such file or directory (os error 2)"
  | denied => "Permission denied (os error 13)"
  | notDirectory => "Not a directory (os error 20)"
  | isDirectory => "Is a directory (os error 21)"
  | nameTooLong => "File name too long (os error 36)"
  | notText => "stream did not contain valid UTF-8"
  | other text => text

inductive FileTree where
  | file (content : String)
  /-- A file that can be started. -/
  | program
  | directory (entries : List (String × FileTree))
  deriving Inhabited

namespace FileTree

/-- Puts a file at the end of a path into the entries of a directory, in place of an earlier one. -/
def insert (content : String) : List String → List (String × FileTree) → List (String × FileTree)
  | [], es => es
  | [name], es => (name, file content) :: es.filter fun e => e.1 ≠ name
  | name :: parts, es =>
    let inner := match es.lookup name with
      | some (directory ds) => ds
      | _ => []
    (name, directory (insert content parts inner)) :: es.filter fun e => e.1 ≠ name

/-- The directory that holds the given files, named by their paths. -/
def ofFiles (files : List (String × String)) : FileTree :=
  directory (files.foldl (fun es f => insert f.2 (f.1.splitOn "/") es) [])

end FileTree

/-- A point in a tree: what is here, and the directories above, the nearest first. -/
structure Place where
  here : FileTree
  above : List FileTree := []
  deriving Inhabited

namespace Place

/-- The greatest number of bytes in a part of a path. -/
def maxName : Nat := 255

/-- The greatest number of bytes in a path. -/
def maxPath : Nat := 4095

/-- The top of the tree. -/
def root (p : Place) : Place := ⟨p.above.getLast?.getD p.here, []⟩

/-- Follows the parts of a path. -/
def walk : (here : FileTree) → (above : List FileTree) → List String → Except FileError FileTree
  | here, _, [] => .ok here
  | .directory es, above, name :: parts =>
    if name = "" || name = "." then walk (.directory es) above parts
    else if name = ".." then
      match above with
      | [] => walk (.directory es) [] parts
      | parent :: higher => walk parent higher parts
    else if maxName < name.utf8ByteSize then .error .nameTooLong
    else
      match es.lookup name with
      | none => .error .noEntry
      | some t => walk t (.directory es :: above) parts
  | _, _, _ :: _ => .error .notDirectory

/-- What a path leads to. -/
def find (p : Place) (path : String) : Except FileError FileTree :=
  if path.isEmpty then .error .noEntry
  else if maxPath < path.utf8ByteSize then .error .nameTooLong
  else
    let start := if path.front = '/' then p.root else p
    walk start.here start.above (path.splitOn "/")

/-- Whether a path leads to something. -/
def holds (p : Place) (path : String) : Bool := (p.find path).isOk

/-- The text of a file. -/
def read (p : Place) (path : String) : Except FileError String :=
  match p.find path with
  | .error e => .error e
  | .ok (.file content) => .ok content
  | .ok .program => .error .notText
  | .ok (.directory _) => .error .isDirectory

/-- Succeeds if a program can be started. -/
def start (p : Place) (path : String) : Except FileError Unit :=
  if path.contains '/' then
    match p.find path with
    | .error e => .error e
    | .ok .program => .ok ()
    | .ok _ => .error .denied
  else if path = "." || path = ".." then .error .denied
  else .error .noEntry

end Place

end Cutpoint
