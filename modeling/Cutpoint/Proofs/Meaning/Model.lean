import Cutpoint.Proofs.Expr.NameMap
import Cutpoint.Proofs.Expr.Sorted

/-!
# Models

What a solver takes a formula to say: integers of any size, truth values, and arrays that are maps
of all indices. The length of an array is no part of it but the value of a function, except that an
update carries its own.

* `Element`: a value with its sort; `Valuation`: an element for every name, and `Bindings`, for
  some;
* `Model`: what the predicates and the length mean, and what counts where an operator has no value
  of its own: for a division by zero, and for an operand of another sort than is expected;
* `Model.value M σ e`: the value of an expression; `Model.valueIn M D σ e`: the same with the
  integers of `D` for those of binders;
* `Model.Satisfies M ps`: the predicates agree with their definitions for all arguments, and
  `Model.SatisfiesSorted M ps`, for those of the sorts of the parameters; `Model.Respects M ps e`:
  the latter if the formula `e` and the definitions are well-sorted, else the former.
-/

set_option autoImplicit false

namespace Cutpoint

/-! ## Elements -/

/-- What the sorts range over. -/
def Ty.Domain : Ty → Type
  | int => Int
  | bool => Bool
  | array t => Int → t.Domain

def Ty.origin : (t : Ty) → t.Domain
  | int => (0 : Int)
  | bool => false
  | array t => fun _ => t.origin

structure Element where
  ty : Ty
  val : ty.Domain

namespace Element

def int (n : Int) : Element := ⟨.int, n⟩

def bool (b : Bool) : Element := ⟨.bool, b⟩

@[simp] theorem int_ty (n : Int) : (int n).ty = .int := rfl

@[simp] theorem bool_ty (b : Bool) : (bool b).ty = .bool := rfl

@[simp] theorem int_inj {m n : Int} : int m = int n ↔ m = n :=
  ⟨fun h => by injection h, fun h => by rw [h]⟩

@[simp] theorem bool_inj {a b : Bool} : bool a = bool b ↔ a = b :=
  ⟨fun h => by injection h, fun h => by rw [h]⟩

theorem eq_int {d : Element} (h : d.ty = .int) : ∃ n, d = int n := by
  rcases d with ⟨t, x⟩
  cases h
  exact ⟨x, rfl⟩

theorem eq_bool {d : Element} (h : d.ty = .bool) : ∃ b, d = bool b := by
  rcases d with ⟨t, x⟩
  cases h
  exact ⟨x, rfl⟩

theorem eq_array {d : Element} {t : Ty} (h : d.ty = .array t) :
    ∃ f : Int → t.Domain, d = ⟨.array t, f⟩ := by
  rcases d with ⟨u, x⟩
  cases h
  exact ⟨x, rfl⟩

/-- The elements have the sorts of the variables. -/
abbrev Typed (vs : List Var) (ds : List Element) : Prop := Var.TypedBy Element.ty vs ds

end Element

/-! ## Valuations -/

abbrev Valuation := NameMap Element

/-- The variables have elements of their sorts. -/
def Valuation.Fits (σ : Valuation) (vs : List Var) : Prop :=
  NameMap.Fits (fun v d => d.ty = v.ty) σ vs

abbrev Bindings := NameMap (Option Element)

namespace Bindings

/-- No name has an element. -/
def none : Bindings := fun _ => Option.none

/-- The bindings with elements for the given variables. -/
def bind (ρ : Bindings) (vs : List Var) (ds : List Element) : Bindings :=
  NameMap.bind ρ vs (ds.map some)

theorem bind_apply (ρ : Bindings) (vs : List Var) (ds : List Element) (x : String) :
    ρ.bind vs ds x = (Var.lookup vs ds x).or (ρ x) := by
  rw [bind, NameMap.bind, Var.lookup_map]
  cases Var.lookup vs ds x <;> rfl

/-- The names that have elements have them in the valuation. -/
def Agrees (ρ : Bindings) (σ : Valuation) : Prop := ∀ x d, ρ x = some d → σ x = d

theorem agrees_none (σ : Valuation) : none.Agrees σ := fun x d h => by cases h

theorem Agrees.bind {ρ : Bindings} {σ : Valuation} (h : ρ.Agrees σ) (vs : List Var)
    (ds : List Element) : (ρ.bind vs ds).Agrees (σ.bind vs ds) := by
  intro x d hd
  rw [bind_apply] at hd
  rw [NameMap.bind]
  cases hlookup : Var.lookup vs ds x with
  | none =>
    rw [hlookup] at hd
    exact h x d hd
  | some c =>
    rw [hlookup] at hd
    exact Option.some.inj hd

end Bindings

/-! ## Values of expressions -/

/-- An interpretation of what the sorts leave open. -/
structure Model where
  pred : String → List Element → Element
  length : Element → Int
  divZero : Int → Int
  modZero : Int → Int
  /-- What counts for an element where one of another sort is expected. -/
  other : Element → (t : Ty) → t.Domain

instance : Inhabited Model where
  default := ⟨fun _ _ => .bool false, fun _ => 0, fun _ => 0, fun _ => 0, fun _ t => t.origin⟩

namespace Model
variable (M : Model)

/-- The element as one of the given sort. -/
def as (d : Element) (t : Ty) : t.Domain := if h : d.ty = t then h ▸ d.val else M.other d t

def toInt (d : Element) : Int := M.as d .int

def toBool (d : Element) : Bool := M.as d .bool

def select : Element → Element → Element
  | ⟨.array t, f⟩, i => ⟨t, f (M.toInt i)⟩
  | d, i => ⟨.int, M.as d (.array .int) (M.toInt i)⟩

def store : Element → Element → Element → Element
  | ⟨.array t, f⟩, i, d => ⟨.array t, fun j => if j = M.toInt i then M.as d t else f j⟩
  | c, i, d => ⟨.array .int, fun j => if j = M.toInt i then M.as d .int else M.as c (.array .int) j⟩

theorem as_ty (d : Element) : M.as d d.ty = d.val := dif_pos rfl

@[simp] theorem toInt_int (n : Int) : M.toInt (.int n) = n := M.as_ty (.int n)

@[simp] theorem toBool_bool (b : Bool) : M.toBool (.bool b) = b := M.as_ty (.bool b)

theorem select_array {t : Ty} (f : Int → t.Domain) (n : Int) :
    M.select ⟨.array t, f⟩ (.int n) = ⟨t, f n⟩ := by
  show Element.mk t (f (M.toInt (.int n))) = _
  rw [toInt_int]

theorem store_array (d : Element) (f : Int → d.ty.Domain) (n : Int) :
    M.store ⟨.array d.ty, f⟩ (.int n) d = ⟨.array d.ty, fun j => if j = n then d.val else f j⟩ := by
  show Element.mk (.array d.ty) (fun j => if j = M.toInt (.int n) then M.as d d.ty else f j) = _
  rw [toInt_int, as_ty]

end Model

def UnOp.meaning (M : Model) : UnOp → Element → Element
  | not, d => .bool !M.toBool d
  | neg, d => .int (-M.toInt d)

theorem UnOp.meaning_ty (M : Model) (op : UnOp) (d : Element) :
    (op.meaning M d).ty = op.operand := by
  cases op <;> rfl

open Classical in
noncomputable def BinOp.meaning (M : Model) : BinOp → Element → Element → Element
  | add, c, d => .int (M.toInt c + M.toInt d)
  | sub, c, d => .int (M.toInt c - M.toInt d)
  | mul, c, d => .int (M.toInt c * M.toInt d)
  | div, c, d => .int (if M.toInt d = 0 then M.divZero (M.toInt c) else M.toInt c / M.toInt d)
  | mod, c, d => .int (if M.toInt d = 0 then M.modZero (M.toInt c) else M.toInt c % M.toInt d)
  | lt, c, d => .bool (decide (M.toInt c < M.toInt d))
  | le, c, d => .bool (decide (M.toInt c ≤ M.toInt d))
  | gt, c, d => .bool (decide (M.toInt c > M.toInt d))
  | ge, c, d => .bool (decide (M.toInt c ≥ M.toInt d))
  | eq, c, d => .bool (decide (c = d))
  | ne, c, d => .bool (decide (c ≠ d))
  | and, c, d => .bool (M.toBool c && M.toBool d)
  | or, c, d => .bool (M.toBool c || M.toBool d)
  | implies, c, d => .bool (!M.toBool c || M.toBool d)
  | iff, c, d => .bool (decide (c = d))

theorem BinOp.meaning_ty (M : Model) (op : BinOp) (c d : Element) :
    (op.meaning M c d).ty = op.result := by
  cases op <;> rfl

/-- The elements have the sorts of the variables, and the integers among them are those of `D`. -/
def Element.Ranges (D : Int → Prop) (vs : List Var) (ds : List Element) : Prop :=
  Typed vs ds ∧ ∀ n, int n ∈ ds → D n

/-- Whether all or some of the lists of a kind have a property. -/
def Quantifier.Among (q : Quantifier) (S P : List Element → Prop) : Prop :=
  match q with
  | all => ∀ ds, S ds → P ds
  | ex => ∃ ds, S ds ∧ P ds

theorem Quantifier.among_congr {q : Quantifier} {S P Q : List Element → Prop}
    (h : ∀ ds, S ds → (P ds ↔ Q ds)) : q.Among S P ↔ q.Among S Q := by
  cases q with
  | all => exact forall_congr' fun ds => imp_congr_right (h ds)
  | ex => exact exists_congr fun ds => and_congr_right (h ds)

namespace Model
variable (M : Model) (D : Int → Prop)

open Classical in
mutual

/-- The value of an expression, with the integers of `D` for those of binders. -/
noncomputable def valueIn : Valuation → Expr → Element
  | _, .bool b => .bool b
  | _, .int n => .int n
  | σ, .var v => σ v.name
  | σ, .unary op e => op.meaning M (valueIn σ e)
  | σ, .binary op l r => op.meaning M (valueIn σ l) (valueIn σ r)
  | σ, .select a i => M.select (valueIn σ a) (valueIn σ i)
  | σ, .length (.update _ _ _ l) => valueIn σ l
  | σ, .length a => .int (M.length (valueIn σ a))
  | σ, .update a i v _ => M.store (valueIn σ a) (valueIn σ i) (valueIn σ v)
  | σ, .apply p es => M.pred p (valuesIn σ es)
  | σ, .quant q bs e =>
    .bool (decide (q.Among (Element.Ranges D bs) fun ds =>
      M.toBool (valueIn (σ.bind bs ds) e) = true))

noncomputable def valuesIn : Valuation → List Expr → List Element
  | _, [] => []
  | σ, e :: es => valueIn σ e :: valuesIn σ es

end

/-- The value of an expression. -/
noncomputable def value (σ : Valuation) (e : Expr) : Element := M.valueIn (fun _ => True) σ e

section Forms
variable (σ : Valuation)

theorem valuesIn_eq_map (es : List Expr) : M.valuesIn D σ es = es.map (M.valueIn D σ) := by
  induction es with
  | nil => rfl
  | cons e es ih =>
    show M.valueIn D σ e :: M.valuesIn D σ es = _
    rw [ih, List.map_cons]

theorem valueIn_unary (op : UnOp) (e : Expr) :
    M.valueIn D σ (.unary op e) = op.meaning M (M.valueIn D σ e) := rfl

theorem valueIn_binary (op : BinOp) (l r : Expr) :
    M.valueIn D σ (.binary op l r) = op.meaning M (M.valueIn D σ l) (M.valueIn D σ r) := rfl

theorem valueIn_apply (p : String) (es : List Expr) :
    M.valueIn D σ (.apply p es) = M.pred p (es.map (M.valueIn D σ)) := by
  show M.pred p (M.valuesIn D σ es) = _
  rw [valuesIn_eq_map]

open Classical in
theorem valueIn_quant (q : Quantifier) (bs : List Var) (e : Expr) : M.valueIn D σ (.quant q bs e) =
    .bool (decide (q.Among (Element.Ranges D bs) fun ds =>
      M.toBool (M.valueIn D (σ.bind bs ds) e) = true)) := rfl

end Forms

/-! ## Definitions -/

/-- The predicate agrees with its definition for the given arguments, with some values for what else
the body mentions. -/
def Agrees (p : Predicate) (ds : List Element) : Prop :=
  ∃ σ : Valuation, M.pred p.name ds = M.value (σ.bind p.parameters ds) p.body

/-- The predicates agree with their definitions, whatever the arguments. -/
def Satisfies (ps : Predicates) : Prop :=
  ∀ name p, ps.find? name = some p → ∀ ds, ds.length = p.parameters.length → M.Agrees p ds

/-- The predicates agree with their definitions for arguments of the sorts of the parameters. -/
def SatisfiesSorted (ps : Predicates) : Prop :=
  ∀ name p, ps.find? name = some p → ∀ ds, Element.Typed p.parameters ds → M.Agrees p ds

/-- The predicates agree with their definitions as far as the sorts of the formula tell: for
arguments of the right sorts if formula and definitions are well-sorted, else for all arguments. -/
def Respects (ps : Predicates) (e : Expr) : Prop :=
  M.Satisfies ps ∨ (M.SatisfiesSorted ps ∧ e.WellSorted ps.signature ∧ ps.Sorted)

end Model

end Cutpoint
