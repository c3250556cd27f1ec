import Cutpoint.Expr.Subst
import Cutpoint.Smt.Encode

/-!
# Scripts

`Smt.Theory` holds the predicate definitions that every script starts with. `Smt.Theory.query` is
the script that asks whether an expression is valid: it asserts the negation, so that `unsat` means
valid.

A definition under a known name takes the place of the earlier one. A definition that fails leaves
the theory as it was.
-/

set_option autoImplicit false

namespace Cutpoint.Smt

structure Theory where
  /-- Predicates with their commands, in the order of their first definition. -/
  definitions : List (String × SExp) := []
  /-- The length functions that definitions have used. -/
  lengths : Table := []
  deriving Inhabited

/-- Puts a definition in the place of one of its name, or at the end. -/
def replaceOrAdd (name : String) (command : SExp) : List (String × SExp) → List (String × SExp)
  | [] => [(name, command)]
  | (n, c) :: ds => if n = name then (n, command) :: ds else (n, c) :: replaceOrAdd name command ds

namespace Theory

/-- Adds the definition of a predicate whose body mentions its parameters only. -/
def define (th : Theory) (p : Predicate) : Except EncodeError Theory := do
  let (body, decls) ← (encode (Var.names p.parameters) p.body).run { lengths := th.lengths }
  match decls.consts with
  | (x, _) :: _ => throw (.openPredicate p.name x)
  | [] =>
    let name ← symbol p.name
    let params ← binders p.parameters
    let command := .app "define-fun" [.atom name, .list params, .atom "Bool", body]
    return { definitions := replaceOrAdd p.name command th.definitions, lengths := decls.lengths }

/-- Declarations of length functions. -/
def lengthCommands (lengths : Table) : List SExp :=
  lengths.map fun l => .app "declare-fun" [.atom l.1, .list [sort l.2], .atom "Int"]

/-- Declarations of free variables. -/
def constCommands : Table → Except EncodeError (List SExp)
  | [] => .ok []
  | (x, t) :: cs => do
    let s ← symbol x
    return .app "declare-const" [.atom s, sort t] :: (← constCommands cs)

/-- The commands that ask whether `e` is valid: length functions, predicates, free variables, the
negated expression, and the two questions. -/
def commands (th : Theory) (e : Expr) : Except EncodeError (List SExp) := do
  let (t, decls) ← (encode [] e).run { lengths := th.lengths }
  let consts ← constCommands decls.consts
  return lengthCommands decls.lengths ++ th.definitions.map Prod.snd ++ consts ++
    [.app "assert" [.app "not" [t]], .app "check-sat" [], .app "get-model" []]

/-- The script that asks whether `e` is valid, one command a line. -/
def query (th : Theory) (e : Expr) : Except EncodeError String :=
  return String.join ((← th.commands e).map fun c => c.render ++ "\n")

end Theory

end Cutpoint.Smt
