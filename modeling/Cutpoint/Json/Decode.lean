import Cutpoint.Json.Basic
import Cutpoint.Basic

/-!
# Taking JSON values apart

Records and variants are written in more than one way.

* A record is an object with its fields, or an array of them in order. Members of other names are
  ignored; a field that is given twice is refused.
* A variant is an object with one member, named for the variant; one without content is also just
  its name, and its content is then `null`.
-/

set_option autoImplicit false

namespace Cutpoint.Json

/-- The first member of the given name. -/
def member? (name : String) (ms : List (Option String × Json)) : Option Json :=
  (ms.find? fun m => m.1 = some name).map Prod.snd

/-- The values of the named fields of a record, `none` for a field that is not there. -/
def fields? (names : List String) : Json → Option (List (Option Json))
  | obj ms =>
    if ms.all (fun m => m.1.isSome) &&
        names.all (fun n => (ms.filter fun m => m.1 = some n).length ≤ 1) then
      some (names.map fun n => member? n ms)
    else none
  | arr js =>
    if js.length ≤ names.length then
      some (js.map some ++ List.replicate (names.length - js.length) none) else none
  | _ => none

def int? : Json → Option Int
  | int n => some n
  | _ => none

/-- An integer that fits into 64 bits with a sign. -/
def signed? : Json → Option Int
  | int n => if Word64.Signed n then some n else none
  | _ => none

/-- An integer that fits into 64 bits without a sign. -/
def unsigned64? : Json → Option Nat
  | int n => if Word64.Unsigned n then some n.toNat else none
  | _ => none

def bool? : Json → Option Bool
  | bool b => some b
  | _ => none

def text? : Json → Option String
  | str s => s
  | _ => none

/-- The items of an array, each read by `item`; `none` if one of them is refused. -/
def list? {α : Type} (item : Json → Option α) : Json → Option (List α)
  | arr js => js.mapM item
  | _ => none

/-! ## Reading with a bound on the depth

The bound is the number of levels of arrays and objects that may still be entered. -/

/-- Reads a variant without content: its name, or an object with its name and `null`. -/
def name? : (levels : Nat) → Json → Option String
  | _, str s => s
  | _ + 1, obj [(s, null)] => s
  | _, _ => none

/-- Reads a record, one level down: the values of its fields are read by `read` with the levels that
are left. -/
def record? {α : Type} (names : List String) (levels : Nat)
    (read : Nat → List (Option Json) → Option α) (j : Json) : Option α :=
  match levels with
  | 0 => none
  | inner + 1 => (j.fields? names).bind (read inner)

/-- Reads an array, one level down. -/
def items? {α : Type} (levels : Nat) (item : Nat → Json → Option α) (j : Json) : Option (List α) :=
  match levels with
  | 0 => none
  | inner + 1 => j.list? (item inner)

/-- Reads an array that may be left out. -/
def itemsOrNone? {α : Type} (levels : Nat) (item : Nat → Json → Option α) :
    Option Json → Option (List α)
  | none => some []
  | some j => j.items? levels item

end Cutpoint.Json
