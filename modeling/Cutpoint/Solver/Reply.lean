import Cutpoint.Solver.Basic

/-!
# Replies of an external solver

`Reply.answer` reads what a solver printed: a first word for the answer and, after `sat`, the values
of the constants.

* Values are the definitions without parameters in the lists that follow; a list may start with the
  word `model`.
* Bars around names and values are taken off, and `(- 5)` is read as `-5`.
-/

set_option autoImplicit false

namespace Cutpoint

/-- What a solver printed on its two channels. -/
structure Reply where
  stdout : String := ""
  stderr : String := ""
  deriving DecidableEq, Inhabited

inductive Answer where
  | sat (model : List (String × String))
  | unsat
  | unknown (reason : String)
  deriving DecidableEq, Inhabited

/-- A symbol without the bars around it. -/
def unquote (s : String) : String :=
  match s.toList with
  | '|' :: cs => if cs.getLast? = some '|' then String.ofList cs.dropLast else s
  | _ => s

namespace SExp

/-- A value of a model. -/
def valueText : SExp → String
  | atom s => unquote s
  | list [atom "-", atom n] =>
    if n.toList.all Smt.isDigit then "-" ++ n else (list [atom "-", atom n]).render
  | e => e.render

/-- The name and value of a definition without parameters. -/
def constant? : SExp → Option (String × String)
  | list [atom "define-fun", atom name, list [], _, value] => some (unquote name, value.valueText)
  | _ => none

/-- The constants that one item of a reply defines. -/
def constants : SExp → List (String × String)
  | atom _ => []
  | list (atom "model" :: es) => es.filterMap constant?
  | list es => es.filterMap constant?

end SExp

namespace Reply

/-- What the items of a reply say. -/
def read (stderr : String) : List SExp → Except SolverError Answer
  | [] => .error (.reply .noItems)
  | .atom word :: items =>
    if word = "unsat" then .ok .unsat
    else if word = "sat" then .ok (.sat (items.flatMap SExp.constants))
    else if word = "unknown" then
      .ok (.unknown (if (trim stderr).isEmpty then "solver returned unknown" else trim stderr))
    else if word = "timeout" then .ok (.unknown "timeout")
    else .error (.reply (.unexpected word))
  | .list [.atom "error", e] :: _ => .error (.process e.render)
  | e :: _ => .error (.reply (.unexpected e.render))

/-- What a reply says. -/
def answer (r : Reply) : Except SolverError Answer :=
  if r.stdout.toList.all isBlank then
    if occursIn "timeout".toList r.stderr.toList then .ok (.unknown "timeout")
    else .error (.reply (.empty (trim r.stderr)))
  else
    match SExp.parse r.stdout with
    | .error e => .error (.reply (.unreadable e))
    | .ok items => read r.stderr items

end Reply

/-- An answer about the negation of a formula, as one about the formula. -/
def Answer.validity : Answer → Validity
  | unsat => .valid
  | sat m => .invalid ⟨m⟩
  | unknown r => .unknown r

end Cutpoint
