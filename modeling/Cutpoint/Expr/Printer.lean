import Cutpoint.Expr.Basic
import Cutpoint.Basic

/-!
# The text of an expression

`Expr.text` writes binary operators in parentheses and everything else without, so that `-` and `!`
stand directly before their operand.
-/

set_option autoImplicit false

namespace Cutpoint

def Var.declText (v : Var) : String := v.name ++ ": " ++ v.ty.text

def UnOp.symbol : UnOp → String
  | .not => "!"
  | .neg => "-"

namespace Expr

mutual

def text : Expr → String
  | bool b => boolText b
  | int n => intText n
  | var v => v.name
  | unary op e => op.symbol ++ e.text
  | binary op l r => "(" ++ l.text ++ " " ++ op.symbol ++ " " ++ r.text ++ ")"
  | select a i => a.text ++ "[" ++ i.text ++ "]"
  | length a => "len(" ++ a.text ++ ")"
  | update a i v l => a.text ++ "\x7b" ++ i.text ++ " := " ++ v.text ++ "; len " ++ l.text ++ "\x7d"
  | apply p es => p ++ "(" ++ commaList (texts es) ++ ")"
  | quant q bs e =>
    "(" ++ q.word ++ " " ++ commaList (bs.map Var.declText) ++ " :: " ++ e.text ++ ")"

def texts : List Expr → List String
  | [] => []
  | e :: es => e.text :: texts es

end

end Expr

end Cutpoint
