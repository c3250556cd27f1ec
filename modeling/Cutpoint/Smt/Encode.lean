import Cutpoint.Expr.Printer
import Cutpoint.Expr.Typing
import Cutpoint.SExp

/-!
# Expressions as terms of a script

`Smt.encode` turns an expression into an s-expression and collects what the script has to declare:
the free variables with their sorts, and the length functions of the array sorts that are measured.

* A name that is a simple symbol of SMT-LIB stands as it is, any other between bars. A name with a
  bar or a backslash has no symbol.
* A negative literal is written as the negation of its absolute value.
* An array's length is an uninterpreted function, one for each sort of array; the length of an
  update is the one it carries, and its own array, index and value are then not written at all.
* A quantifier without variables is its body, an application without arguments the bare name.
-/

set_option autoImplicit false

namespace Cutpoint.Smt

/-! ## Symbols -/

/-- Words with a meaning of their own. -/
def reserved : List String :=
  ["true", "false", "and", "or", "not", "xor", "ite", "let", "forall", "exists", "select", "store",
    "div", "mod", "abs", "distinct", "par", "as", "_", "!"]

def isDigit (c : Char) : Bool := '0' ≤ c && c ≤ '9'

/-- The characters of simple symbols. -/
def isSymbolChar (c : Char) : Bool :=
  isDigit c || ('a' ≤ c && c ≤ 'z') || ('A' ≤ c && c ≤ 'Z') || "~!@$%^&*_-+=<>.?/".toList.contains c

def isSimple (name : String) : Bool :=
  match name.toList with
  | [] => false
  | c :: cs => !isDigit c && isSymbolChar c && cs.all isSymbolChar && !reserved.contains name

/-- The symbol of a name. -/
def symbol? (name : String) : Option String :=
  if isSimple name then some name
  else if name.toList.contains '|' || name.toList.contains '\\' then none
  else some ("|" ++ name ++ "|")

/-! ## Sorts -/

def sort : Ty → SExp
  | .int => .atom "Int"
  | .bool => .atom "Bool"
  | .array t => .list [.atom "Array", .atom "Int", sort t]

/-- A sort as part of a name. -/
def sortName : Ty → String
  | .int => "int"
  | .bool => "bool"
  | .array t => "arr_" ++ sortName t

/-- The length function of arrays with the given elements. -/
def lengthName (elem : Ty) : String := "len." ++ sortName elem

/-! ## Declarations -/

/-- Why an expression has no term. -/
inductive EncodeError where
  /-- The array whose length is asked has no sort. -/
  | untyped (array : Expr)
  /-- The length of something that is no array is asked. -/
  | notArray (array : Expr)
  /-- A name is used at two sorts. -/
  | clash (name : String) (first second : Ty)
  /-- A name has no symbol. -/
  | unspeakable (name : String)
  /-- The body of a predicate mentions a variable that is no parameter. -/
  | openPredicate (predicate name : String)
  deriving Inhabited

def EncodeError.message : EncodeError → String
  | untyped e => "cannot type `" ++ e.text ++ "`"
  | notArray e => "length of non-array `" ++ e.text ++ "`"
  | clash x s t =>
    "variable `" ++ x ++ "` used as both " ++ (sort s).render ++ " and " ++ (sort t).render
  | unspeakable x => "cannot encode name `" ++ x ++ "`"
  | openPredicate p x => "predicate `" ++ p ++ "` mentions free variable `" ++ x ++ "`"

/-- A table sorted by its keys. -/
abbrev Table := List (String × Ty)

namespace Table

def find? (t : Table) (key : String) : Option Ty := (List.find? (fun p => p.1 = key) t).map Prod.snd

/-- Puts an entry into the table, in place of an earlier one of its key. -/
def insert (key : String) (ty : Ty) : Table → Table
  | [] => [(key, ty)]
  | (k, u) :: t =>
    if key = k then (key, ty) :: t else if key < k then (key, ty) :: (k, u) :: t
      else (k, u) :: insert key ty t

end Table

/-- What a script has to declare for its terms. -/
structure Decls where
  /-- Free variables and their sorts. -/
  consts : Table := []
  /-- Length functions and the sorts of array that they measure. -/
  lengths : Table := []
  deriving Inhabited

abbrev Encoder (α : Type) := StateT Decls (Except EncodeError) α

/-! ## Terms -/

def symbol (name : String) : Except EncodeError String :=
  match symbol? name with
  | some s => .ok s
  | none => .error (.unspeakable name)

/-- Binders or parameters with their sorts. -/
def binders : List Var → Except EncodeError (List SExp)
  | [] => .ok []
  | v :: vs => do
    let s ← symbol v.name
    return .list [.atom s, sort v.ty] :: (← binders vs)

/-- A variable. One whose name is not bound is declared, at one sort only. -/
def encodeVar (bound : List String) (v : Var) : Encoder SExp := do
  let s ← symbol v.name
  if bound.contains v.name then return .atom s
  let decls ← get
  match decls.consts.find? v.name with
  | none => set { decls with consts := decls.consts.insert v.name v.ty }
  | some t => if t = v.ty then pure () else throw (.clash v.name t v.ty)
  return .atom s

def unaryTerm : UnOp → SExp → SExp
  | .not, e => .app "not" [e]
  | .neg, e => .app "-" [e]

def binaryTerm : BinOp → SExp → SExp → SExp
  | .add, l, r => .app "+" [l, r]
  | .sub, l, r => .app "-" [l, r]
  | .mul, l, r => .app "*" [l, r]
  | .div, l, r => .app "div" [l, r]
  | .mod, l, r => .app "mod" [l, r]
  | .lt, l, r => .app "<" [l, r]
  | .le, l, r => .app "<=" [l, r]
  | .gt, l, r => .app ">" [l, r]
  | .ge, l, r => .app ">=" [l, r]
  | .eq, l, r => .app "=" [l, r]
  | .iff, l, r => .app "=" [l, r]
  | .ne, l, r => .app "not" [.app "=" [l, r]]
  | .and, l, r => .app "and" [l, r]
  | .or, l, r => .app "or" [l, r]
  | .implies, l, r => .app "=>" [l, r]

/-- An integer literal. -/
def intTerm : Int → SExp
  | .ofNat n => .atom (natText n)
  | .negSucc n => .app "-" [.atom (natText (n + 1))]

/-- The length of an array whose term is `array`, declaring the length function. -/
def encodeLength (e : Expr) (array : Encoder SExp) : Encoder SExp :=
  match e.type? with
  | none => throw (.untyped e)
  | some (.array t) => do
    let a ← array
    modify fun decls => { decls with lengths := decls.lengths.insert (lengthName t) (.array t) }
    return .app (lengthName t) [a]
  | some _ => throw (.notArray e)

mutual

/-- The term of an expression in the scope of the names `bound`. -/
def encode (bound : List String) : Expr → Encoder SExp
  | .bool b => pure (.atom (boolText b))
  | .int n => pure (intTerm n)
  | .var v => encodeVar bound v
  | .unary op e => return unaryTerm op (← encode bound e)
  | .binary op l r => return binaryTerm op (← encode bound l) (← encode bound r)
  | .select a i => return .app "select" [← encode bound a, ← encode bound i]
  | .length (.update _ _ _ l) => encode bound l
  | .length a => encodeLength a (encode bound a)
  | .update a i v _ => return .app "store" [← encode bound a, ← encode bound i, ← encode bound v]
  | .apply p es => do
    let s ← symbol p
    let ts ← encodeAll bound es
    return if ts.isEmpty then .atom s else .app s ts
  | .quant q bs e =>
    if bs.isEmpty then encode bound e
    else do
      let vs ← binders bs
      return .app q.word [.list vs, ← encode (Var.names bs ++ bound) e]

def encodeAll (bound : List String) : List Expr → Encoder (List SExp)
  | [] => pure []
  | e :: es => return (← encode bound e) :: (← encodeAll bound es)

end

/-- The term of a single expression. -/
def term (e : Expr) : Except EncodeError SExp := return (← (encode [] e).run {}).1

end Cutpoint.Smt
