import Cutpoint.Json.Decode
import Cutpoint.Expr.Subst

/-!
# Expressions as JSON

`toJson` writes sorts, variables, expressions and predicates; `ofJson?` reads them. Reading takes
the number of levels of arrays and objects that may be entered, so that a document can be refused
for its depth. Values that are ignored do not count.
-/

set_option autoImplicit false

namespace Cutpoint

/-! ## Sorts and variables -/

namespace Ty

def toJson : Ty → Json
  | int => .text "int"
  | bool => .text "bool"
  | array t => .object [("array", t.toJson)]

def ofJson? : (levels : Nat) → Json → Option Ty
  | _, .str (some "int") => some int
  | _, .str (some "bool") => some bool
  | _ + 1, .obj [(some "int", .null)] => some int
  | _ + 1, .obj [(some "bool", .null)] => some bool
  | levels + 1, .obj [(some "array", j)] => (ofJson? levels j).map array
  | _, _ => none

end Ty

namespace Var

def toJson (v : Var) : Json := .object [("name", .text v.name), ("ty", v.ty.toJson)]

def ofJson? (levels : Nat) (j : Json) : Option Var :=
  j.record? ["name", "ty"] levels fun inner fs =>
    match fs with
    | [some name, some ty] => do return ⟨← name.text?, ← Ty.ofJson? inner ty⟩
    | _ => none

end Var

/-! ## Operators -/

namespace UnOp

def name : UnOp → String
  | not => "not"
  | neg => "neg"

def ofName? (s : String) : Option UnOp := [not, neg].find? fun op => op.name = s

end UnOp

namespace BinOp

def name : BinOp → String
  | add => "add"
  | sub => "sub"
  | mul => "mul"
  | div => "div"
  | mod => "mod"
  | lt => "lt"
  | le => "le"
  | gt => "gt"
  | ge => "ge"
  | eq => "eq"
  | ne => "ne"
  | and => "and"
  | or => "or"
  | implies => "implies"
  | iff => "iff"

def ofName? (s : String) : Option BinOp :=
  [add, sub, mul, div, mod, lt, le, gt, ge, eq, ne, and, or, implies, iff].find?
    fun op => op.name = s

end BinOp

def Quantifier.ofName? (s : String) : Option Quantifier := [all, ex].find? fun q => q.word = s

/-! ## Expressions -/

namespace Expr

mutual

def toJson : Expr → Json
  | bool b => .object [("bool", .bool b)]
  | int n => .object [("int", .int n)]
  | var v => .object [("var", v.toJson)]
  | unary op e => .object [("unary", .object [("op", .text op.name), ("operand", e.toJson)])]
  | binary op l r =>
    .object [("binary", .object [("op", .text op.name), ("lhs", l.toJson), ("rhs", r.toJson)])]
  | select a i => .object [("select", .object [("array", a.toJson), ("index", i.toJson)])]
  | length a => .object [("length", a.toJson)]
  | update a i v l =>
    .object [("array_update",
      .object [("array", a.toJson), ("index", i.toJson), ("value", v.toJson),
      ("length", l.toJson)])]
  | apply p es => .object [("apply", .object [("predicate", .text p), ("args", .arr (toJsons es))])]
  | quant q bs e =>
    .object [("quantified",
      .object [("quantifier", .text q.word), ("bound", .arr (bs.map Var.toJson)),
      ("body", e.toJson)])]

def toJsons : List Expr → List Json
  | [] => []
  | e :: es => e.toJson :: toJsons es

end

def ofJson? : (levels : Nat) → Json → Option Expr
  | levels + 1, .obj [(some tag, j)] =>
    match tag with
    | "bool" => j.bool?.map bool
    | "int" => j.signed?.map int
    | "var" => (Var.ofJson? levels j).map var
    | "length" => (ofJson? levels j).map length
    | _ =>
      match levels with
      | 0 => none
      | inner + 1 =>
        match tag with
        | "unary" =>
          match j.fields? ["op", "operand"] with
          | some [some op, some e] =>
            do return unary (← (← op.name? inner) |> UnOp.ofName?) (← ofJson? inner e)
          | _ => none
        | "binary" =>
          match j.fields? ["op", "lhs", "rhs"] with
          | some [some op, some l, some r] => do
            return binary (← (← op.name? inner) |> BinOp.ofName?) (← ofJson? inner l)
              (← ofJson? inner r)
          | _ => none
        | "select" =>
          match j.fields? ["array", "index"] with
          | some [some a, some i] => do return select (← ofJson? inner a) (← ofJson? inner i)
          | _ => none
        | "array_update" =>
          match j.fields? ["array", "index", "value", "length"] with
          | some [some a, some i, some v, some l] => do
            return update (← ofJson? inner a) (← ofJson? inner i) (← ofJson? inner v)
              (← ofJson? inner l)
          | _ => none
        | "apply" =>
          match j.fields? ["predicate", "args"] with
          | some [some p, some es] =>
            match inner with
            | 0 => none
            | inmost + 1 => do return apply (← p.text?) (← es.list? (ofJson? inmost))
          | _ => none
        | "quantified" =>
          match j.fields? ["quantifier", "bound", "body"] with
          | some [some q, some bs, some e] => do
            return quant (← (← q.name? inner) |> Quantifier.ofName?) (← bs.items? inner Var.ofJson?)
              (← ofJson? inner e)
          | _ => none
        | _ => none
  | _, _ => none

end Expr

/-! ## Predicates -/

namespace Predicate

def toJson (p : Predicate) : Json :=
  .object [("name", .text p.name), ("parameters", .arr (p.parameters.map Var.toJson)),
    ("body", p.body.toJson)]

def ofJson? (levels : Nat) (j : Json) : Option Predicate :=
  j.record? ["name", "parameters", "body"] levels fun inner fs =>
    match fs with
    | [some name, some ps, some body] => do
      return ⟨← name.text?, ← ps.items? inner Var.ofJson?, ← Expr.ofJson? inner body⟩
    | _ => none

end Predicate

end Cutpoint
