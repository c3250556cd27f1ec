import Cutpoint.Expr.Basic

/-!
# Free variables and sorts

* A binder hides every variable of its name, whatever the sort. `Expr.free` lists the free variables
  in the order of `Var.lt`, each once.
* `Expr.type?` reads a sort off the root, looking further only through array elements and updates.
-/

set_option autoImplicit false

namespace Cutpoint

/-! ## Free variables -/

/-- The names of a list of variables. -/
def Var.names (vs : List Var) : List String := vs.map Var.name

namespace Expr

mutual

/-- Adds the free variables whose names are not in `hidden` to a sorted list. -/
def collectFree (hidden : List String) : Expr → List Var → List Var
  | bool _, acc => acc
  | int _, acc => acc
  | var v, acc => if hidden.contains v.name then acc else insertBy Var.lt v acc
  | unary _ e, acc => e.collectFree hidden acc
  | binary _ l r, acc => r.collectFree hidden (l.collectFree hidden acc)
  | select a i, acc => i.collectFree hidden (a.collectFree hidden acc)
  | length a, acc => a.collectFree hidden acc
  | update a i v l, acc =>
    l.collectFree hidden (v.collectFree hidden (i.collectFree hidden (a.collectFree hidden acc)))
  | apply _ es, acc => collectFrees hidden es acc
  | quant _ bs e, acc => e.collectFree (Var.names bs ++ hidden) acc

def collectFrees (hidden : List String) : List Expr → List Var → List Var
  | [], acc => acc
  | e :: es, acc => collectFrees hidden es (e.collectFree hidden acc)

end

/-- The variables with an occurrence outside the scope of every binder of their name. -/
def free (e : Expr) : List Var := e.collectFree [] []

/-- The names of the free variables, in order and each once. -/
def freeNames (e : Expr) : List String :=
  (Var.names e.free).foldl (fun names n => insertBy (fun a b => decide (a < b)) n names) []

/-- Whether `v` is free in the expression. -/
def mentions (e : Expr) (v : Var) : Bool := e.free.contains v

/-! ## Sorts -/

/-- The sort of the expression, if its shape shows one; operands are not checked. -/
def type? : Expr → Option Ty
  | bool _ => some .bool
  | int _ => some .int
  | var v => some v.ty
  | unary .not _ => some .bool
  | unary .neg _ => some .int
  | binary op _ _ => some (if op.isArithmetic then .int else .bool)
  | select a _ => a.type?.bind Ty.elem?
  | length _ => some .int
  | update a _ _ _ => a.type?
  | apply _ _ => some .bool
  | quant _ _ _ => some .bool

end Expr

end Cutpoint
