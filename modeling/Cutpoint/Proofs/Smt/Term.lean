import Cutpoint.Proofs.Meaning.Model
import Cutpoint.SExp
import Cutpoint.Smt.Encode

/-!
# The meaning of terms

Terms of SMT-LIB over truth values, integers and arrays of integer indices, as far as expressions
need them: quantifiers, symbols with and without arguments, and the functions of the theories at the
numbers of arguments that expressions have.

* `Smt.symbolOf?`, `Smt.numeral?`, `Smt.sortOf?`: what an atom or a sort says. A symbol is the same
  with and without bars;
* `Smt.Op`: the functions of the theories, which have values for arguments of their sorts only;
* `Smt.Interpretation`: what the other symbols mean, all in one name space, and what a division by
  zero gives;
* `Smt.Interpretation.denote I t ρ`: the value of a term where the variables of enclosing binders
  have the values `ρ`. A variable hides every symbol of its name. What is no well-sorted term has no
  value.
-/

set_option autoImplicit false

namespace Cutpoint

namespace Smt

/-! ## Symbols and sorts -/

/-- Words that are no symbols. -/
def keywords : List String := ["let", "forall", "exists", "match", "par", "as", "_", "!"]

/-- The functions of the theories of truth values, integers and arrays. -/
def theorySymbols : List String :=
  ["true", "false", "not", "=>", "and", "or", "xor", "=", "distinct", "ite", "-", "+", "*", "div",
    "mod", "abs", "<=", "<", ">=", ">", "select", "store"]

/-- The symbol that an atom is, without its bars. -/
def symbolOf? (s : String) : Option String :=
  match s.toList with
  | [] => none
  | c :: cs =>
    if c = '|' then some (String.ofList cs.dropLast)
    else if isSymbolChar c && !isDigit c && !keywords.contains s then some s
    else none

/-- The number that an atom is. -/
def numeral? (s : String) : Option Nat :=
  if !s.toList.isEmpty && s.toList.all isDigit then some (Nat.ofDigitChars 10 s.toList 0) else none

def sortOf? : SExp → Option Ty
  | .atom s => if s = "Int" then some .int else if s = "Bool" then some .bool else none
  | .list [.atom a, .atom i, e] => if a = "Array" ∧ i = "Int" then (sortOf? e).map .array else none
  | _ => none

/-- A variable of a quantifier. -/
def binder? : SExp → Option Var
  | .list [.atom s, t] => (symbolOf? s).bind fun x => (sortOf? t).map fun u => ⟨x, u⟩
  | _ => none

def quantifier? (s : String) : Option Quantifier :=
  if s = "forall" then some .all else if s = "exists" then some .ex else none

/-! ## Functions of the theories -/

inductive Op where
  | not | minus | plus | times | div | mod
  | lt | le | gt | ge
  | eq | and | or | implies
  | select | store
  deriving DecidableEq

namespace Op

def word : Op → String
  | not => "not"
  | minus => "-"
  | plus => "+"
  | times => "*"
  | div => "div"
  | mod => "mod"
  | lt => "<"
  | le => "<="
  | gt => ">"
  | ge => ">="
  | eq => "="
  | and => "and"
  | or => "or"
  | implies => "=>"
  | select => "select"
  | store => "store"

def all : List Op :=
  [not, minus, plus, times, div, mod, lt, le, gt, ge, eq, and, or, implies, select, store]

def ofWord? (s : String) : Option Op := all.find? fun op => op.word = s

end Op

/-- What the theories leave open. -/
structure Interpretation where
  /-- The value of a symbol, a constant if there are no arguments. -/
  symbol : String → List Element → Element
  divZero : Int → Int
  modZero : Int → Int

end Smt

namespace Element

def int? : Element → Option Int
  | ⟨.int, n⟩ => some n
  | _ => none

def bool? : Element → Option Bool
  | ⟨.bool, b⟩ => some b
  | _ => none

@[simp] theorem int?_int (n : Int) : (int n).int? = some n := rfl

@[simp] theorem bool?_bool (b : Bool) : (bool b).bool? = some b := rfl

/-- The element of an array. -/
def select? : Element → Int → Option Element
  | ⟨.array t, f⟩, n => some ⟨t, f n⟩
  | _, _ => none

/-- The array with another element. -/
def store? : Element → Int → Element → Option Element
  | ⟨.array t, f⟩, n, d =>
    if h : d.ty = t then some ⟨.array t, fun j => if j = n then h ▸ d.val else f j⟩ else none
  | _, _, _ => none

end Element

namespace Smt

open Classical in
/-- The value of a function of the theories for arguments of its sorts. -/
noncomputable def Op.value? (I : Interpretation) : Op → List Element → Option Element
  | not, [c] => do return .bool (!(← c.bool?))
  | minus, [c] => do return .int (-(← c.int?))
  | minus, [c, d] => do return .int ((← c.int?) - (← d.int?))
  | plus, [c, d] => do return .int ((← c.int?) + (← d.int?))
  | times, [c, d] => do return .int ((← c.int?) * (← d.int?))
  | div, [c, d] => do
    let m ← c.int?
    let n ← d.int?
    return .int (if n = 0 then I.divZero m else m / n)
  | mod, [c, d] => do
    let m ← c.int?
    let n ← d.int?
    return .int (if n = 0 then I.modZero m else m % n)
  | lt, [c, d] => do return .bool (decide ((← c.int?) < (← d.int?)))
  | le, [c, d] => do return .bool (decide ((← c.int?) ≤ (← d.int?)))
  | gt, [c, d] => do return .bool (decide ((← c.int?) > (← d.int?)))
  | ge, [c, d] => do return .bool (decide ((← c.int?) ≥ (← d.int?)))
  | eq, [c, d] => if c.ty = d.ty then some (.bool (decide (c = d))) else none
  | and, [c, d] => do return .bool ((← c.bool?) && (← d.bool?))
  | or, [c, d] => do return .bool ((← c.bool?) || (← d.bool?))
  | implies, [c, d] => do return .bool (!(← c.bool?) || (← d.bool?))
  | select, [c, i] => do c.select? (← i.int?)
  | store, [c, i, d] => do c.store? (← i.int?) d
  | _, _ => none

/-! ## Terms -/

namespace Interpretation
variable (I : Interpretation)

/-- A symbol that is no variable, without arguments. -/
def constant (x : String) : Option Element :=
  if x = "true" then some (.bool true)
  else if x = "false" then some (.bool false)
  else if theorySymbols.contains x then none
  else some (I.symbol x [])

def atom (s : String) (ρ : Bindings) : Option Element :=
  match numeral? s with
  | some n => some (.int n)
  | none => (symbolOf? s).bind fun x => (ρ x).or (I.constant x)

/-- A symbol with arguments. -/
noncomputable def call? (ρ : Bindings) (f : String) (ds : List Element) : Option Element :=
  if (ρ f).isSome || ds.isEmpty then none
  else if theorySymbols.contains f then (Op.ofWord? f).bind fun op => op.value? I ds
  else some (I.symbol f ds)

open Classical in
/-- A quantifier over variables of different names, whose body is true or false for all of their
values. -/
noncomputable def quantify (q : Quantifier) (bs : List Var) (body : List Element → Option Element) :
    Option Element :=
  if bs ≠ [] ∧ (Var.names bs).Nodup ∧ ∀ ds, Element.Typed bs ds → ∃ b, body ds = some (.bool b) then
    some (.bool (decide (q.Among (Element.Typed bs) fun ds => body ds = some (.bool true))))
  else none

/-- The value of a list of items, from the items and their own values. -/
noncomputable def form (items : List SExp) (values : List (Bindings → Option Element))
    (ρ : Bindings) : Option Element :=
  match items, values with
  | .atom f :: args, _ :: ms =>
    match quantifier? f with
    | some q =>
      match args, ms with
      | [.list vs, _], [_, m] =>
        (vs.mapM binder?).bind fun bs => quantify q bs fun ds => m (ρ.bind bs ds)
      | _, _ => none
    | none =>
      (symbolOf? f).bind fun x =>
        (ms.mapM fun (m : Bindings → Option Element) => m ρ).bind (I.call? ρ x)
  | _, _ => none

mutual

/-- The value of a term in the scope of binders. -/
noncomputable def denote : SExp → Bindings → Option Element
  | .atom s => I.atom s
  | .list es => I.form es (denoteAll es)

noncomputable def denoteAll : List SExp → List (Bindings → Option Element)
  | [] => []
  | e :: es => denote e :: denoteAll es

end

theorem denoteAll_eq_map (es : List SExp) : I.denoteAll es = es.map I.denote := by
  induction es with
  | nil => rfl
  | cons e es ih =>
    show I.denote e :: I.denoteAll es = _
    rw [ih, List.map_cons]

variable {I} {ρ : Bindings}

theorem mapM_denoteAll {es : List SExp} {ds : List Element}
    (h : List.Forall₂ (fun e d => I.denote e ρ = some d) es ds) :
    ((I.denoteAll es).mapM fun m => m ρ) = some ds := by
  rw [denoteAll_eq_map]
  induction h with
  | nil => rfl
  | cons he _ ih => simp [he, ih]

/-- A symbol with arguments has the value it gives for the values of the arguments. -/
theorem denote_app {f x : String} {args : List SExp} {ds : List Element} (hq : quantifier? f = none)
    (hf : symbolOf? f = some x) (h : List.Forall₂ (fun e d => I.denote e ρ = some d) args ds) :
    I.denote (.app f args) ρ = I.call? ρ x ds := by
  show I.form (.atom f :: args) (I.denote (.atom f) :: I.denoteAll args) ρ = _
  simp only [form, hq, hf, Option.bind_some, mapM_denoteAll h]

theorem denote_quant {q : Quantifier} {f : String} {vs : List SExp} {body : SExp} {bs : List Var}
    (hq : quantifier? f = some q) (hvs : vs.mapM binder? = some bs) :
    I.denote (.app f [.list vs, body]) ρ =
      quantify q bs fun ds => I.denote body (ρ.bind bs ds) := by
  show I.form [.atom f, .list vs, body] [I.denote (.atom f), I.denote (.list vs),
    I.denote body] ρ = _
  simp only [form, hq, hvs, Option.bind_some]

theorem denote_op {op : Op} {args : List SExp} {ds : List Element} (hρ : ρ op.word = none)
    (hne : ds ≠ []) (h : List.Forall₂ (fun e d => I.denote e ρ = some d) args ds) :
    I.denote (.app op.word args) ρ = op.value? I ds := by
  have hword : quantifier? op.word = none ∧ symbolOf? op.word = some op.word ∧
      theorySymbols.contains op.word = true ∧ Op.ofWord? op.word = some op := by
    cases op <;> decide
  obtain ⟨hq, hf, htheory, hop⟩ := hword
  rw [denote_app hq hf h, call?, hρ, if_neg (by simpa using hne), if_pos htheory, hop,
    Option.bind_some]

end Interpretation

end Smt

end Cutpoint
