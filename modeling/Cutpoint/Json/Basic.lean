/-!
# JSON values

A JSON document as a tree. Objects keep their members in the order of the text, repetitions
included. Numbers are kept apart by how they are written: an integer literal is a number of its own,
any other spelling only counts as a number.
-/

set_option autoImplicit false

namespace Cutpoint

inductive Json where
  | null
  | bool (value : Bool)
  /-- A number written as an integer. -/
  | int (value : Int)
  /-- A number written with a fraction or an exponent, or as `-0`. -/
  | real
  /-- A string; `none` if an escape in it is half of a surrogate pair, so that it is no text. -/
  | str (text : Option String)
  | arr (items : List Json)
  | obj (members : List (Option String × Json))
  deriving Inhabited

namespace Json

/-- A string that is text. -/
def text (s : String) : Json := str (some s)

/-- An object with the given members. -/
def object (members : List (String × Json)) : Json := obj (members.map fun m => (some m.1, m.2))

mutual

/-- The number of arrays and objects around the most deeply nested value. -/
def depth : Json → Nat
  | null | bool _ | int _ | real | str _ => 0
  | arr js => depths js + 1
  | obj ms => memberDepths ms + 1

def depths : List Json → Nat
  | [] => 0
  | j :: js => max j.depth (depths js)

def memberDepths : List (Option String × Json) → Nat
  | [] => 0
  | (_, j) :: ms => max j.depth (memberDepths ms)

end

end Json

end Cutpoint
