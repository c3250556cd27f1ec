import Cutpoint.Expr.Json
import Cutpoint.Flow.Basic
import Cutpoint.Json.Printer
import Cutpoint.Json.Reader

/-!
# Programs as JSON

`Program.toText` writes a program with all its fields; `Program.ofText?` reads one. Lists of a
procedure that are empty may be left out, except for the locations. A document may be at most
`maxLevels` levels deep.
-/

set_option autoImplicit false

namespace Cutpoint

namespace Statement

def toJson : Statement → Json
  | assign v e => .object [("assign", .object [("variable", v.toJson), ("value", e.toJson)])]
  | assignAt a i e =>
    .object [("subscript_assign",
      .object [("array", a.toJson), ("index", i.toJson), ("value", e.toJson)])]
  | assume e => .object [("assume", .object [("condition", e.toJson)])]
  | assert e => .object [("assert", .object [("condition", e.toJson)])]
  | call lhs f args =>
    .object [("call",
      .object [("lhs", .arr (lhs.map Var.toJson)), ("callee", .text f),
      ("arguments", .arr (args.map Var.toJson))])]

def ofJson? : (levels : Nat) → Json → Option Statement
  | levels + 1, .obj [(some "assign", j)] =>
    j.record? ["variable", "value"] levels fun inner fs =>
      match fs with
      | [some v, some e] => do return assign (← Var.ofJson? inner v) (← Expr.ofJson? inner e)
      | _ => none
  | levels + 1, .obj [(some "subscript_assign", j)] =>
    j.record? ["array", "index", "value"] levels fun inner fs =>
      match fs with
      | [some a, some i, some e] => do
        return assignAt (← Var.ofJson? inner a) (← Expr.ofJson? inner i) (← Expr.ofJson? inner e)
      | _ => none
  | levels + 1, .obj [(some "assume", j)] =>
    j.record? ["condition"] levels fun inner fs =>
      match fs with
      | [some e] => (Expr.ofJson? inner e).map assume
      | _ => none
  | levels + 1, .obj [(some "assert", j)] =>
    j.record? ["condition"] levels fun inner fs =>
      match fs with
      | [some e] => (Expr.ofJson? inner e).map assert
      | _ => none
  | levels + 1, .obj [(some "call", j)] =>
    j.record? ["lhs", "callee", "arguments"] levels fun inner fs =>
      match fs with
      | [lhs, some f, args] => do
        return call (← Json.itemsOrNone? inner Var.ofJson? lhs) (← f.text?)
          (← Json.itemsOrNone? inner Var.ofJson? args)
      | _ => none
  | _, _ => none

end Statement

namespace Edge

def toJson (e : Edge) : Json :=
  .object [("target", .int e.target), ("statement", e.statement.toJson)]

def ofJson? (levels : Nat) (j : Json) : Option Edge :=
  j.record? ["target", "statement"] levels fun inner fs =>
    match fs with
    | [some t, some s] => do return ⟨← t.unsigned64?, ← Statement.ofJson? inner s⟩
    | _ => none

end Edge

namespace Location

def Kind.toJson : Kind → Json
  | entry cs rs =>
    .object [("entry", .object [("conditions", .arr (cs.map Expr.toJson)),
      ("ranking_functions", .arr (rs.map Expr.toJson))])]
  | exit cs => .object [("exit", .object [("conditions", .arr (cs.map Expr.toJson))])]
  | loopHead is rs =>
    .object [("loop_head",
      .object [("invariants", .arr (is.map Expr.toJson)),
      ("ranking_functions", .arr (rs.map Expr.toJson))])]
  | plain => .text "plain"

def Kind.ofJson? : (levels : Nat) → Json → Option Kind
  | _, .str (some "plain") => some plain
  | _ + 1, .obj [(some "plain", .null)] => some plain
  | levels + 1, .obj [(some "entry", j)] =>
    j.record? ["conditions", "ranking_functions"] levels fun inner fs =>
      match fs with
      | [cs, rs] => do
        return entry (← Json.itemsOrNone? inner Expr.ofJson? cs)
          (← Json.itemsOrNone? inner Expr.ofJson? rs)
      | _ => none
  | levels + 1, .obj [(some "exit", j)] =>
    j.record? ["conditions"] levels fun inner fs =>
      match fs with
      | [cs] => (Json.itemsOrNone? inner Expr.ofJson? cs).map exit
      | _ => none
  | levels + 1, .obj [(some "loop_head", j)] =>
    j.record? ["invariants", "ranking_functions"] levels fun inner fs =>
      match fs with
      | [is, rs] => do
        return loopHead (← Json.itemsOrNone? inner Expr.ofJson? is)
          (← Json.itemsOrNone? inner Expr.ofJson? rs)
      | _ => none
  | _, _ => none

def toJson (l : Location) : Json :=
  .object [("kind", l.kind.toJson), ("edges", .arr (l.edges.map Edge.toJson))]

def ofJson? (levels : Nat) (j : Json) : Option Location :=
  j.record? ["kind", "edges"] levels fun inner fs =>
    match fs with
    | [some k, es] => do return ⟨← Kind.ofJson? inner k, ← Json.itemsOrNone? inner Edge.ofJson? es⟩
    | _ => none

end Location

namespace Procedure

def toJson (f : Procedure) : Json :=
  .object [("name", .text f.name), ("parameters", .arr (f.parameters.map Var.toJson)),
    ("rvs", .arr (f.results.map Var.toJson)), ("entry", .int f.entry), ("exit", .int f.exit),
    ("locations", .arr (f.locations.map Location.toJson))]

def ofJson? (levels : Nat) (j : Json) : Option Procedure :=
  j.record? ["name", "parameters", "rvs", "entry", "exit", "locations"] levels fun inner fs =>
    match fs with
    | [some name, ps, rs, some entry, some exit, some ls] => do
      return ⟨← name.text?, ← Json.itemsOrNone? inner Var.ofJson? ps,
        ← Json.itemsOrNone? inner Var.ofJson? rs,
        ← entry.unsigned64?, ← exit.unsigned64?, ← ls.items? inner Location.ofJson?⟩
    | _ => none

end Procedure

namespace Program

def toJson (p : Program) : Json :=
  .object [("predicates", .arr (p.predicates.map Predicate.toJson)),
    ("functions", .arr (p.procedures.map Procedure.toJson))]

def ofJson? (levels : Nat) (j : Json) : Option Program :=
  j.record? ["predicates", "functions"] levels fun inner fs =>
    match fs with
    | [ps, gs] => do
      return ⟨← Json.itemsOrNone? inner Predicate.ofJson? ps,
        ← Json.itemsOrNone? inner Procedure.ofJson? gs⟩
    | _ => none

/-- How deep arrays and objects of a program may nest. -/
def maxLevels : Nat := 127

def toText (p : Program) : String := p.toJson.render

def ofText? (text : String) : Option Program := (Json.parse? text).bind (ofJson? maxLevels)

end Program

end Cutpoint
