import Cutpoint.Condition.Weakest

/-!
# Termination

A path from a location with ranking functions to another, or to a call of a procedure with ranking
functions, has to lead to smaller values in the lexicographic order, none of which is negative.

The values at the start are frozen under new names while the condition is carried backwards, since
that rewrites the variables in which they are stated. The new names then become the variables again,
which at the start of the path have these values.
-/

set_option autoImplicit false

namespace Cutpoint

/-- For each pair, that its first part is smaller while those of the earlier pairs are equal;
`before` says that the latter are. -/
def lexParts : (before : List Expr) → List (Expr × Expr) → List Expr
  | _, [] => []
  | before, (x, y) :: ps =>
    .conj (.binary .lt x y :: before) :: lexParts (before ++ [.binary .eq x y]) ps

/-- The values of `exit` are smaller than those of `entry` in the lexicographic order. -/
def lexDecrease (exit entry : List Expr) : Expr := .disj (lexParts [] (exit.zip entry))

/-- The comparison, if `exit` has a component for each of `entry`. -/
def lexDecrease? (exit entry : List Expr) : Option Expr :=
  if exit.length < entry.length then none else some (lexDecrease exit entry)

/-- No value is negative. -/
def nonNegative (es : List Expr) : Expr := .conj (es.map fun e => .binary .ge e (.int 0))

namespace PathContext

/-- The variables of the ranking functions, in the order in which they are met. -/
def rankingVars (entry : List Expr) : List Var := distinct (entry.flatMap Expr.free)

/-- The formula that the values of the first tuple are smaller than those of the second, or a fault
if there is none. -/
abbrev Comparison := List Expr → List Expr → Except Fault Expr

/-- The condition that a path leads from the ranking functions `entry` to `exit`, which are
compared as given. -/
def decreaseConditionBy (compare : Comparison) (c : PathContext) (pre : Expr)
    (entry exit : List Expr) : Naming Expr := do
  let vs := rankingVars entry
  let frozen ← Naming.freshAll vs
  let start := entry.map (Expr.subst (.ofRenaming (vs.zip frozen)))
  let lex ← Naming.ofExcept (compare exit start)
  let w ← c.weakest (.and lex (nonNegative exit))
  return .implies (.and pre (nonNegative entry)) (w.subst (.ofRenaming (frozen.zip vs)))

/-- The conditions for the ranking functions that a path leads to. -/
def decreaseConditionsBy (compare : Comparison) (c : PathContext) (pre : Expr)
    (entry : List Expr) : List (List Expr) → Naming (List Expr)
  | [] => pure []
  | exit :: exits =>
    if exit.isEmpty then c.decreaseConditionsBy compare pre entry exits
    else if exit.length ≠ entry.length then
      throw (.mismatch c.procedure.name (.rankings c.path.locations exit.length entry.length))
    else do
      let e ← c.decreaseConditionBy compare pre entry exit
      return e :: (← c.decreaseConditionsBy compare pre entry exits)

/-- Every component of the second tuple is compared with the one that stands in its place. -/
def inPlace : Comparison := fun exit entry => .ok (lexDecrease exit entry)

/-- The conditions where ranking functions are compared in the lexicographic order. -/
def decreaseConditions (c : PathContext) (pre : Expr) (entry : List Expr)
    (exits : List (List Expr)) : Naming (List Expr) :=
  c.decreaseConditionsBy inPlace pre entry exits

/-- A condition for each of the given ranking functions, if there are some at the start of the
path. -/
def termination (c : PathContext) (pre : Expr) (exits : List (List Expr)) : Naming (List Expr) :=
  if c.rankings.isEmpty then pure [] else c.decreaseConditions pre c.rankings exits

end PathContext

end Cutpoint
