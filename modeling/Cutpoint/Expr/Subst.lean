import Cutpoint.Basic
import Cutpoint.Expr.Typing

/-!
# Capture-avoiding substitution

`Expr.subst s e` replaces the free variables of `e` simultaneously.

* A variable is replaced if name and sort agree, while a binder hides every variable of its name.
* A binder whose name is free in a replacement that reaches its body is renamed first, in a pass of
  its own. `Var.fresh v avoid` numbers the stem of `v`, which is its name up to the first `$`: the
  result is `stem$k` for the least `k` whose name is not in `avoid`.
* `Expr.subst?` says whether anything was replaced: it is `none` where the expression stays as it
  is.
* A predicate is a boolean expression over formal parameters. `Predicate.instantiate` replaces the
  parameters by arguments; a table finds the latest definition of a name.

The second pass runs on the renamed body, which is not a part of the expression, so the recursion is
on a number that bounds the depth; renaming keeps the depth.
-/

set_option autoImplicit false

namespace Cutpoint

/-! ## Fresh names -/

/-- A name up to its first dollar sign. -/
def stem (name : String) : String := String.ofList (name.toList.takeWhile (· != '$'))

/-- The `k`-th numbered name of a stem. -/
def numbered (stem : String) (k : Nat) : String := stem ++ "$" ++ natText k

/-- The first of the numbers `k`, `k + 1`, … whose name is not in `avoid`; at most `fuel` of them
are tried. -/
def leastFree (stem : String) (avoid : List String) : (fuel : Nat) → (k : Nat) → Nat
  | 0, k => k
  | fuel + 1, k => if avoid.contains (numbered stem k) then leastFree stem avoid fuel (k + 1) else k

/-- A variable of the same sort under the least numbered name that is not in `avoid`. Among
`avoid.length + 1` names one is always free. -/
def Var.fresh (v : Var) (avoid : List String) : Var :=
  v.rename (numbered (stem v.name) (leastFree (stem v.name) avoid avoid.length 0))

/-! ## Substitution -/

/-- Replacements for variables, each variable at most once. -/
abbrev Subst := List (Var × Expr)

namespace Subst

def find? (s : Subst) (v : Var) : Option Expr := (List.find? (fun p => p.1 = v) s).map Prod.snd

/-- Replaces `v` by `e`, whatever it was replaced by before. -/
def insert (s : Subst) (v : Var) (e : Expr) : Subst := (v, e) :: s.filter fun p => p.1 ≠ v

/-- Replaces `v` by `e`, unless it is replaced already. -/
def insertNew (s : Subst) (v : Var) (e : Expr) : Subst :=
  if (s.find? v).isSome then s else s ++ [(v, e)]

/-- Reads a list of pairs in which a later pair for the same variable counts. -/
def ofPairs (ps : List (Var × Expr)) : Subst := ps.foldl (fun s p => s.insert p.1 p.2) []

/-- Variables for variables. -/
def ofRenaming (ps : List (Var × Var)) : Subst := ofPairs (ps.map fun p => (p.1, Expr.var p.2))

/-- The replacements that reach a body below the binders `bound`: those of its free variables that
no binder hides. -/
def live (s : Subst) (bound free : List Var) : Subst :=
  s.filter fun p => !(Var.names bound).contains p.1.name && free.contains p.1

/-- The names free in the replacements. -/
def imageNames (s : Subst) : List String := s.flatMap fun p => p.2.freeNames

end Subst

/-- Renames the binders whose names are in `clash`, from left to right, to names outside `avoid`. Of
a binder that is listed twice the later one counts. -/
def freshen (clash : List String) : (avoid : List String) → List Var → List Var × Subst
  | _, [] => ([], [])
  | avoid, b :: bs =>
    if clash.contains b.name then
      let f := b.fresh avoid
      let (bs', ren) := freshen clash (f.name :: avoid) bs
      (f :: bs', ren.insertNew b (.var f))
    else
      let (bs', ren) := freshen clash avoid bs
      (b :: bs', ren)

namespace Expr

/-- The new list if one of its members changed. -/
def rebuilt? (old : List Expr) (new : List (Option Expr)) : Option (List Expr) :=
  if new.all Option.isNone then none else some (List.zipWith (fun e n => n.getD e) old new)

/-- Substitution to the given depth; `none` if nothing was replaced. -/
def substAux : (fuel : Nat) → Subst → Expr → Option Expr
  | 0, _, _ => none
  | fuel + 1, s, e =>
    match e with
    | bool _ => none
    | int _ => none
    | var v => s.find? v
    | unary op a => (substAux fuel s a).map (unary op)
    | binary op l r =>
      match substAux fuel s l, substAux fuel s r with
      | none, none => none
      | l', r' => some (binary op (l'.getD l) (r'.getD r))
    | select a i =>
      match substAux fuel s a, substAux fuel s i with
      | none, none => none
      | a', i' => some (select (a'.getD a) (i'.getD i))
    | length a => (substAux fuel s a).map length
    | update a i v l =>
      match substAux fuel s a, substAux fuel s i, substAux fuel s v, substAux fuel s l with
      | none, none, none, none => none
      | a', i', v', l' => some (update (a'.getD a) (i'.getD i) (v'.getD v) (l'.getD l))
    | apply p es => (rebuilt? es (es.map (substAux fuel s))).map (apply p)
    | quant q bs body =>
      let live := s.live bs body.free
      if live.isEmpty then none
      else
        let clash := live.imageNames
        let (bs', ren) := freshen clash (Var.names body.free ++ clash ++ Var.names bs) bs
        let renamed := (substAux fuel ren body).getD body
        some (quant q bs' ((substAux fuel live renamed).getD renamed))

/-- Simultaneous substitution; `none` if nothing was replaced. -/
def subst? (s : Subst) (e : Expr) : Option Expr := substAux e.depth s e

/-- Simultaneous substitution. -/
def subst (s : Subst) (e : Expr) : Expr := (subst? s e).getD e

end Expr

/-! ## Named predicates -/

structure Predicate where
  name : String
  parameters : List Var
  body : Expr
  deriving Inhabited

/-- The body with arguments for the parameters, if there are as many of both. Of a parameter that is
listed twice the later argument counts. -/
def Predicate.instantiate (p : Predicate) (args : List Expr) : Option Expr :=
  if args.length = p.parameters.length then
    some (p.body.subst (.ofPairs (p.parameters.zip args))) else none

/-- Registered predicates, the latest first. -/
abbrev Predicates := List Predicate

namespace Predicates

def define (ps : Predicates) (p : Predicate) : Predicates := p :: ps

/-- The latest definition of a name. -/
def find? (ps : Predicates) (name : String) : Option Predicate :=
  List.find? (fun p => p.name = name) ps

end Predicates

end Cutpoint
