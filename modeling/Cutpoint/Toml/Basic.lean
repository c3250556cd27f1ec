import Cutpoint.Json.Basic

/-!
# TOML documents

A document is a table of tables and values. It is built line by line, and how a table came to be
decides how it may grow.

* `put?` adds a value under a dotted key; `enter?` adds the table of a header; `within?` works on a
  table inside.
* No key is given twice. A table named by a header is not named again and takes no dotted keys from
  outside; a table that stands as a value is complete.
-/

set_option autoImplicit false

namespace Cutpoint

/-- How a table came to be. -/
inductive Toml.Origin where
  /-- Named by a header. -/
  | header
  /-- On the way to a table named by a header. -/
  | implied
  /-- On the way of a dotted key. -/
  | dotted
  /-- Written as a value. -/
  | value
  deriving DecidableEq, Inhabited

inductive Toml where
  | bool (value : Bool)
  | int (value : Int)
  | float
  | str (text : String)
  | arr (items : List Toml)
  | table (origin : Toml.Origin) (members : List (String × Toml))
  deriving Inhabited

namespace Toml

abbrev Members := List (String × Toml)

/-- A dotted key: the tables on its way and its last part. -/
structure Key where
  way : List String
  last : String
  deriving DecidableEq, Inhabited

namespace Members

/-- Replaces the value of a key. -/
def replace (ms : Members) (key : String) (t : Toml) : Members :=
  ms.map fun m => if m.1 = key then (key, t) else m

/-- Adds a value under a dotted key. -/
def put? (last : String) (t : Toml) : List String → Members → Option Members
  | [], ms => if (ms.lookup last).isSome then none else some (ms ++ [(last, t)])
  | k :: way, ms =>
    match ms.lookup k with
    | none => (put? last t way []).map fun inner => ms ++ [(k, .table .dotted inner)]
    | some (.table origin inner) =>
      if origin = .dotted || origin = .implied && !way.isEmpty then
        (put? last t way inner).map fun inner' => ms.replace k (.table origin inner')
      else none
    | some _ => none

/-- Adds the table of a header. -/
def enter? (last : String) : List String → Members → Option Members
  | [], ms =>
    match ms.lookup last with
    | none => some (ms ++ [(last, .table .header [])])
    | some (.table .implied inner) => some (ms.replace last (.table .header inner))
    | some _ => none
  | k :: way, ms =>
    match ms.lookup k with
    | none => (enter? last way []).map fun inner => ms ++ [(k, .table .implied inner)]
    | some (.table origin inner) =>
      if origin = .value then none
      else (enter? last way inner).map fun inner' => ms.replace k (.table origin inner')
    | some _ => none

/-- Changes the table that the keys lead to. -/
def within? (change : Members → Option Members) : List String → Members → Option Members
  | [], ms => change ms
  | k :: keys, ms =>
    match ms.lookup k with
    | some (.table origin inner) =>
      (within? change keys inner).map fun inner' => ms.replace k (.table origin inner')
    | _ => none

end Members

mutual

/-- The document as a JSON value. -/
def toJson : Toml → Json
  | bool b => .bool b
  | int n => .int n
  | float => .real
  | str s => .text s
  | arr ts => .arr (listToJson ts)
  | table _ ms => .obj (membersToJson ms)

def listToJson : List Toml → List Json
  | [] => []
  | t :: ts => t.toJson :: listToJson ts

def membersToJson : List (String × Toml) → List (Option String × Json)
  | [] => []
  | (k, t) :: ms => (some k, t.toJson) :: membersToJson ms

end

end Toml

end Cutpoint
