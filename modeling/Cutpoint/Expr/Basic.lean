/-!
# Expressions

The formulas of the verifier: first-order expressions over integers, booleans and integer-indexed
arrays.

* `Ty`: the sorts; `Var`: a name with a sort, and variables are the same only if both agree.
* `Expr`: the trees; `Expr.conj` and `Expr.disj` join a list from the left.
* `Var.lt` orders variables by name, then sort; `insertBy` keeps a list sorted and free of
  repetitions.
-/

set_option autoImplicit false

namespace Cutpoint

/-! ## Sorts and variables -/

/-- The sort of a variable or expression. -/
inductive Ty where
  | int
  | bool
  | array (elem : Ty)
  deriving DecidableEq, Inhabited

namespace Ty

/-- The sort of an array's elements. -/
def elem? : Ty → Option Ty
  | array t => some t
  | _ => none

def isBool : Ty → Bool
  | bool => true
  | _ => false

def isArray : Ty → Bool
  | array _ => true
  | _ => false

/-- Integers come before booleans, booleans before arrays, and arrays go by their elements. -/
def lt : Ty → Ty → Bool
  | int, int => false
  | int, _ => true
  | bool, int => false
  | bool, bool => false
  | bool, array _ => true
  | array s, array t => lt s t
  | array _, _ => false

def text : Ty → String
  | int => "int"
  | bool => "bool"
  | array t => t.text ++ "[]"

end Ty

/-- A named variable of a given sort. -/
structure Var where
  name : String
  ty : Ty
  deriving DecidableEq, Inhabited

namespace Var

/-- The order of variables: by name, code point by code point, then by sort. -/
def lt (v w : Var) : Bool :=
  decide (v.name < w.name) || (decide (v.name = w.name) && v.ty.lt w.ty)

/-- The same sort under another name. -/
def rename (v : Var) (name : String) : Var := ⟨name, v.ty⟩

end Var

/-! ## Sorted lists -/

/-- Puts `a` into a list sorted by `lt`, unless it is there. -/
def insertBy {α : Type} [DecidableEq α] (lt : α → α → Bool) (a : α) : List α → List α
  | [] => [a]
  | b :: bs => if a = b then b :: bs else if lt a b then a :: b :: bs else b :: insertBy lt a bs

theorem mem_insertBy {α : Type} [DecidableEq α] (lt : α → α → Bool) (a x : α) (bs : List α) :
    x ∈ insertBy lt a bs ↔ x = a ∨ x ∈ bs := by
  induction bs with
  | nil => simp [insertBy]
  | cons b bs ih =>
    unfold insertBy
    split
    · next h => subst h; simp
    · split
      · simp
      · simp only [List.mem_cons, ih]
        exact or_left_comm

/-! ## Operators -/

inductive UnOp where
  /-- Logical negation. -/
  | not
  /-- Arithmetic negation. -/
  | neg
  deriving DecidableEq, Inhabited

inductive BinOp where
  | add | sub | mul | div | mod
  | lt | le | gt | ge
  | eq | ne
  | and | or | implies | iff
  deriving DecidableEq, Inhabited

namespace BinOp

/-- The operators whose result is an integer. -/
def isArithmetic : BinOp → Bool
  | add | sub | mul | div | mod => true
  | _ => false

def symbol : BinOp → String
  | add => "+"
  | sub => "-"
  | mul => "*"
  | div => "/"
  | mod => "%"
  | lt => "<"
  | le => "<="
  | gt => ">"
  | ge => ">="
  | eq => "=="
  | ne => "!="
  | and => "&&"
  | or => "||"
  | implies => "==>"
  | iff => "<==>"

end BinOp

inductive Quantifier where
  | all
  | ex
  deriving DecidableEq, Inhabited

namespace Quantifier

def word : Quantifier → String
  | all => "forall"
  | ex => "exists"

end Quantifier

/-! ## Expressions -/

inductive Expr where
  | bool (value : Bool)
  | int (value : Int)
  | var (v : Var)
  | unary (op : UnOp) (operand : Expr)
  | binary (op : BinOp) (lhs rhs : Expr)
  /-- The element of `array` at `index`. -/
  | select (array index : Expr)
  /-- The length of an array. -/
  | length (array : Expr)
  /-- The array that agrees with `array` except for `value` at `index`, and has the given length. -/
  | update (array index value length : Expr)
  /-- A named predicate applied to arguments. -/
  | apply (predicate : String) (args : List Expr)
  | quant (q : Quantifier) (bound : List Var) (body : Expr)
  deriving Inhabited

namespace Expr

def tt : Expr := bool true

def ff : Expr := bool false

def and (l r : Expr) : Expr := binary .and l r

def or (l r : Expr) : Expr := binary .or l r

def implies (l r : Expr) : Expr := binary .implies l r

/-- The conjunction of all parts, nested to the left; `true` if there is none. -/
def conj : List Expr → Expr
  | [] => tt
  | e :: es => es.foldl and e

/-- The disjunction of all parts, nested to the left; `false` if there is none. -/
def disj : List Expr → Expr
  | [] => ff
  | e :: es => es.foldl or e

/-- Whether the root is an arithmetic negation. -/
def isNegation : Expr → Bool
  | unary .neg _ => true
  | _ => false

/-- The variable that the expression consists of. -/
def var? : Expr → Option Var
  | var v => some v
  | _ => none

mutual

/-- The number of nodes on the longest way from the root to a leaf. -/
def depth : Expr → Nat
  | bool _ | int _ | var _ => 1
  | unary _ e => e.depth + 1
  | binary _ l r => max l.depth r.depth + 1
  | select a i => max a.depth i.depth + 1
  | length a => a.depth + 1
  | update a i v l => max (max a.depth i.depth) (max v.depth l.depth) + 1
  | apply _ es => depths es + 1
  | quant _ _ e => e.depth + 1

/-- The greatest depth in a list. -/
def depths : List Expr → Nat
  | [] => 0
  | e :: es => max e.depth (depths es)

end

end Expr

end Cutpoint
