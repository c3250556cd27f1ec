import Cutpoint.Expr.Typing
import Cutpoint.Flow.Basic
import Cutpoint.Proofs.Expr.Semantics

/-!
# The meaning of formulas

Formulas speak about integers of any size, truth values, and arrays, which are maps of all indices
with a length.

* `Datum`: a value with its sort; `State`: a value for every name;
* `Interp`: what the predicates mean, and what a division by zero gives;
* `Interp.value I σ e`: the value of an expression in a state; `Interp.Holds I σ e`: a formula is
  true in a state;
* `State.Fits σ vs`: the variables `vs` have values of their sorts;
* `Interp.Valid I e`: the formula is true in every state that gives its free variables values of
  their sorts; `Program.Valid p e`: so it is whatever the predicates mean, as long as it agrees with
  their definitions.

An operand of another sort than its operator expects counts as a fixed value of that sort, so that
every expression has a value. The value depends on the free variables only (`Interp.value_congr`),
and a substitution is a change of the state (`Interp.value_subst`), since the meaning is
compositional (`Interp.semantics`).
-/

set_option autoImplicit false

namespace Cutpoint

/-! ## Values -/

def Ty.Carrier : Ty → Type
  | int => Int
  | bool => Bool
  | array t => (Int → t.Carrier) × Int

def Ty.zero : (t : Ty) → t.Carrier
  | int => (0 : Int)
  | bool => false
  | array t => (fun _ => t.zero, (0 : Int))

structure Datum where
  ty : Ty
  val : ty.Carrier

namespace Datum

def int (n : Int) : Datum := ⟨.int, n⟩

def bool (b : Bool) : Datum := ⟨.bool, b⟩

def zero (t : Ty) : Datum := ⟨t, t.zero⟩

def toInt : Datum → Int
  | ⟨.int, n⟩ => n
  | _ => 0

def toBool : Datum → Bool
  | ⟨.bool, b⟩ => b
  | _ => false

/-- The value as one of the given sort. -/
def as (d : Datum) (t : Ty) : t.Carrier := if h : d.ty = t then h ▸ d.val else t.zero

def select : Datum → Int → Datum
  | ⟨.array t, a⟩, i => ⟨t, a.1 i⟩
  | _, _ => int 0

def length : Datum → Int
  | ⟨.array _, a⟩ => a.2
  | _ => 0

/-- The array with another element and the given length. -/
def update : Datum → Int → Datum → Int → Datum
  | ⟨.array t, a⟩, i, d, n => ⟨.array t, (fun j => if j = i then d.as t else a.1 j, n)⟩
  | d, _, _, _ => d

@[simp] theorem toInt_int (n : Int) : (int n).toInt = n := rfl

@[simp] theorem toBool_bool (b : Bool) : (bool b).toBool = b := rfl

@[simp] theorem int_inj {m n : Int} : int m = int n ↔ m = n :=
  ⟨fun h => congrArg toInt h, fun h => by rw [h]⟩

theorem eq_int {d : Datum} (h : d.ty = .int) : d = int d.toInt := by
  rcases d with ⟨t, x⟩
  cases h
  rfl

@[simp] theorem update_ty (a : Datum) (i : Int) (d : Datum)
    (n : Int) : (a.update i d n).ty = a.ty := by
  rcases a with ⟨t, a⟩
  cases t <;> rfl

end Datum

/-! ## States -/

/-- The values have the sorts of the variables. -/
abbrev Var.Typed (vs : List Var) (ds : List Datum) : Prop := Var.TypedBy Datum.ty vs ds

abbrev State := NameMap Datum

namespace State

/-- The variables have values of their sorts. -/
def Fits (σ : State) (vs : List Var) : Prop := NameMap.Fits (fun v d => d.ty = v.ty) σ vs

section Bind
variable {σ : State} {vs : List Var} {ds : List Datum}

/-- The last variable of its name gets a value of its sort. -/
theorem bind_ty {v : Var} (hty : Var.Typed vs ds) (hv : Var.Binds vs v) :
    (σ.bind vs ds v.name).ty = v.ty := by
  obtain ⟨d, hd, hdt⟩ := NameMap.exists_lookup_of_binds hty.forall₂ hv
  rw [NameMap.bind_of_lookup hd, hdt]

theorem Fits.typed_get (hσ : σ.Fits vs) : Var.Typed vs (σ.get vs) := by
  rw [Var.Typed, Var.TypedBy, NameMap.get, List.map_map]
  exact List.map_congr_left hσ

end Bind

open Classical in
/-- Where variables have values of other sorts, they can be given values of theirs. -/
theorem exists_fits {vs : List Var} (hvs : OneType vs) (σ : State) :
    ∃ τ : State, τ.Fits vs ∧ ∀ v ∈ vs, (σ v.name).ty = v.ty → τ v.name = σ v.name := by
  refine ⟨fun x => if h : ∃ v ∈ vs, v.name = x ∧ (σ x).ty ≠ v.ty then .zero h.choose.ty else σ x,
    fun v hv => ?_,
    fun v hv hty => ?_⟩
  · dsimp only
    split
    · next h => rw [hvs _ h.choose_spec.1 v hv h.choose_spec.2.1]; rfl
    · next h => exact by_contra fun hne => h ⟨v, hv, rfl, hne⟩
  · refine dif_neg ?_
    rintro ⟨w, hw, hname, hne⟩
    exact hne (hvs w hw v hv hname ▸ hty)

end State

/-! ## Values of expressions -/

/-- An interpretation of what the sorts leave open. -/
structure Interp where
  pred : String → List Datum → Bool
  divZero : Int → Int
  modZero : Int → Int

def UnOp.value : UnOp → Datum → Datum
  | not, d => .bool !d.toBool
  | neg, d => .int (-d.toInt)

open Classical in
noncomputable def BinOp.value (I : Interp) : BinOp → Datum → Datum → Datum
  | add, c, d => .int (c.toInt + d.toInt)
  | sub, c, d => .int (c.toInt - d.toInt)
  | mul, c, d => .int (c.toInt * d.toInt)
  | div, c, d => .int (if d.toInt = 0 then I.divZero c.toInt else c.toInt / d.toInt)
  | mod, c, d => .int (if d.toInt = 0 then I.modZero c.toInt else c.toInt % d.toInt)
  | lt, c, d => .bool (decide (c.toInt < d.toInt))
  | le, c, d => .bool (decide (c.toInt ≤ d.toInt))
  | gt, c, d => .bool (decide (c.toInt > d.toInt))
  | ge, c, d => .bool (decide (c.toInt ≥ d.toInt))
  | eq, c, d => .bool (decide (c = d))
  | ne, c, d => .bool (decide (c ≠ d))
  | and, c, d => .bool (c.toBool && d.toBool)
  | or, c, d => .bool (c.toBool || d.toBool)
  | implies, c, d => .bool (!c.toBool || d.toBool)
  | iff, c, d => .bool (c.toBool == d.toBool)

/-- Whether a property holds for all or some values of the given variables. -/
def Quantifier.Over (q : Quantifier) (bs : List Var) (P : List Datum → Prop) : Prop :=
  match q with
  | all => ∀ ds, Var.Typed bs ds → P ds
  | ex => ∃ ds, Var.Typed bs ds ∧ P ds

theorem Quantifier.over_congr {q : Quantifier} {bs cs : List Var} {P Q : List Datum → Prop}
    (hty : bs.map Var.ty = cs.map Var.ty) (h : ∀ ds, Var.Typed bs ds → (P ds ↔ Q ds)) :
    q.Over bs P ↔ q.Over cs Q := by
  have htyped : ∀ ds, Var.Typed bs ds ↔ Var.Typed cs ds := Var.typedBy_congr hty
  cases q with
  | all =>
    exact forall_congr' fun ds => ⟨fun hp hd => (h ds ((htyped ds).2 hd)).1 (hp ((htyped ds).2 hd)),
      fun hq hd => (h ds hd).2 (hq ((htyped ds).1 hd))⟩
  | ex => exact exists_congr fun ds => ⟨fun ⟨hd, hp⟩ => ⟨(htyped ds).1 hd, (h ds hd).1 hp⟩,
      fun ⟨hd, hq⟩ => ⟨(htyped ds).2 hd, (h ds ((htyped ds).2 hd)).2 hq⟩⟩

namespace Interp
variable (I : Interp)

open Classical in
mutual

noncomputable def value : State → Expr → Datum
  | _, .bool b => .bool b
  | _, .int n => .int n
  | σ, .var v => σ v.name
  | σ, .unary op e => op.value (value σ e)
  | σ, .binary op l r => op.value I (value σ l) (value σ r)
  | σ, .select a i => (value σ a).select (value σ i).toInt
  | σ, .length a => .int (value σ a).length
  | σ, .update a i v l => (value σ a).update (value σ i).toInt (value σ v) (value σ l).toInt
  | σ, .apply p es => .bool (I.pred p (values σ es))
  | σ, .quant q bs e => .bool (decide (q.Over bs fun ds => (value (σ.bind bs ds) e).toBool = true))

noncomputable def values : State → List Expr → List Datum
  | _, [] => []
  | σ, e :: es => value σ e :: values σ es

end

section Forms
variable (σ : State)

@[simp] theorem values_nil : I.values σ [] = [] := rfl

@[simp] theorem values_cons (e : Expr) (es : List Expr) :
    I.values σ (e :: es) = I.value σ e :: I.values σ es := rfl

theorem values_eq_map (es : List Expr) : I.values σ es = es.map (I.value σ) := by
  induction es with
  | nil => rfl
  | cons e es ih => rw [values_cons, ih, List.map_cons]

@[simp] theorem value_bool (b : Bool) : I.value σ (.bool b) = .bool b := rfl

@[simp] theorem value_int (n : Int) : I.value σ (.int n) = .int n := rfl

@[simp] theorem value_var (v : Var) : I.value σ (.var v) = σ v.name := rfl

@[simp] theorem value_unary (op : UnOp) (e : Expr) :
    I.value σ (.unary op e) = op.value (I.value σ e) := rfl

@[simp] theorem value_binary (op : BinOp) (l r : Expr) :
    I.value σ (.binary op l r) = op.value I (I.value σ l) (I.value σ r) := rfl

@[simp] theorem value_select (a i : Expr) :
    I.value σ (.select a i) = (I.value σ a).select (I.value σ i).toInt := rfl

@[simp] theorem value_length (a : Expr) : I.value σ (.length a) = .int (I.value σ a).length := rfl

@[simp] theorem value_update (a i v l : Expr) : I.value σ (.update a i v l) =
    (I.value σ a).update (I.value σ i).toInt (I.value σ v) (I.value σ l).toInt := rfl

theorem value_apply (p : String) (es : List Expr) :
    I.value σ (.apply p es) = .bool (I.pred p (es.map (I.value σ))) := by
  show Datum.bool (I.pred p (I.values σ es)) = _
  rw [values_eq_map]

open Classical in
theorem value_quant (q : Quantifier) (bs : List Var) (e : Expr) : I.value σ (.quant q bs e) =
    .bool (decide (q.Over bs fun ds => (I.value (σ.bind bs ds) e).toBool = true)) := rfl

end Forms

/-- The meaning in states is compositional. -/
noncomputable def semantics : Semantics State Datum Datum where
  look σ := σ
  bind σ vs ds := σ.bind vs ds
  given d := d
  value := I.value
  look_bind σ vs ds := by rw [List.map_id']
  exists_mixed k σ τ := ⟨fun x => if k x then τ x else σ x, fun _ => rfl⟩
  value_bool _ _ _ := rfl
  value_int _ _ _ := rfl
  value_var _ _ := rfl
  value_unary op h := by rw [value_unary, value_unary, h]
  value_binary op hl hr := by rw [value_binary, value_binary, hl, hr]
  value_select ha hi := by rw [value_select, value_select, ha, hi]
  value_length ha := by rw [value_length, value_length, ha]
  value_update ha hi hd hl := by rw [value_update, value_update, ha, hi, hd, hl]
  value_apply p h := by rw [value_apply, value_apply, h]
  value_quant q hty h := by
    rw [value_quant, value_quant]
    congr 2
    refine propext (Quantifier.over_congr hty fun ds hds => ?_)
    rw [h ds hds.length]

/-- The value depends on the free variables only. -/
theorem value_congr {σ τ : State} {e : Expr} (h : ∀ v ∈ e.free, σ v.name = τ v.name) :
    I.value σ e = I.value τ e :=
  I.semantics.value_congr h

/-- A substituted expression has the value of the expression where the variables have the values of
what became of them. -/
theorem value_subst {s : Subst} {e : Expr} {σ τ : State} (he : e.Scoped)
    (h : ∀ v ∈ e.free, τ v.name = I.value σ (s.image v)) : I.value σ (e.subst s) = I.value τ e :=
  I.semantics.value_subst he h

/-- An expression whose sort can be read off its root has a value of that sort. -/
theorem value_ty {σ : State} {e : Expr} {t : Ty} (hσ : σ.Fits e.free) (ht : e.type? = some t) :
    (I.value σ e).ty = t := by
  induction e generalizing t with
  | bool b | int n | length a | apply p es | quant q bs e => exact Option.some.inj ht
  | var v => exact (hσ v (by simp)).trans (Option.some.inj ht)
  | unary op e => cases op <;> exact Option.some.inj ht
  | binary op l r => cases op <;> exact Option.some.inj ht
  | select a i ha hi =>
    rw [Expr.type?, Option.bind_eq_some_iff] at ht
    obtain ⟨u, hu, he⟩ := ht
    have hty := ha (hσ.mono fun v hv => by simp [hv]) hu
    rw [value_select]
    rcases hd : I.value σ a with ⟨w, d⟩
    rw [hd] at hty
    subst hty
    cases w with
    | array w => exact Option.some.inj he
    | int | bool => cases he
  | update a i x l ha =>
    rw [value_update, Datum.update_ty, ha (hσ.mono fun v hv => by simp [hv]) ht]

/-! ## Truth -/

def Holds (σ : State) (e : Expr) : Prop := (I.value σ e).toBool = true

section Truth
variable {I} {σ τ : State}

theorem holds_congr {e : Expr} (h : ∀ v ∈ e.free, σ v.name = τ v.name) :
    I.Holds σ e ↔ I.Holds τ e := by
  rw [Holds, Holds, I.value_congr h]

@[simp] theorem holds_tt : I.Holds σ .tt := rfl

@[simp] theorem not_holds_ff : ¬ I.Holds σ .ff := Bool.false_ne_true

@[simp] theorem holds_and (l r : Expr) : I.Holds σ (.and l r) ↔ I.Holds σ l ∧ I.Holds σ r :=
  Bool.and_eq_true_iff

@[simp] theorem holds_or (l r : Expr) : I.Holds σ (.or l r) ↔ I.Holds σ l ∨ I.Holds σ r :=
  Bool.or_eq_true_iff

@[simp] theorem holds_implies (l r : Expr) :
    I.Holds σ (.implies l r) ↔ (I.Holds σ l → I.Holds σ r) := by
  show (!(I.value σ l).toBool || (I.value σ r).toBool) = true ↔
    ((I.value σ l).toBool = true → (I.value σ r).toBool = true)
  cases (I.value σ l).toBool <;> simp

@[simp] theorem holds_conj (es : List Expr) : I.Holds σ (.conj es) ↔ ∀ e ∈ es, I.Holds σ e := by
  cases es with
  | nil => simp [Expr.conj]
  | cons e es =>
    have general : ∀ a, I.Holds σ (es.foldl Expr.and a) ↔ I.Holds σ a ∧ ∀ e ∈ es, I.Holds σ e := by
      induction es with
      | nil => simp
      | cons e es ih => intro a; rw [List.foldl_cons, ih]; simp [and_assoc]
    rw [Expr.conj, general, List.forall_mem_cons]

@[simp] theorem holds_disj (es : List Expr) : I.Holds σ (.disj es) ↔ ∃ e ∈ es, I.Holds σ e := by
  cases es with
  | nil => simp [Expr.disj]
  | cons e es =>
    have general : ∀ a, I.Holds σ (es.foldl Expr.or a) ↔ I.Holds σ a ∨ ∃ e ∈ es, I.Holds σ e := by
      induction es with
      | nil => simp
      | cons e es ih => intro a; rw [List.foldl_cons, ih]; simp [or_assoc]
    rw [Expr.disj, general, List.exists_mem_cons_iff]

end Truth

/-! ## Validity -/

/-- The formula is true in every state that gives its free variables values of their sorts. -/
def Valid (e : Expr) : Prop := ∀ σ : State, σ.Fits e.free → I.Holds σ e

variable {I} in
/-- A formula over the variables of a scope and new variables is valid if it is true for all values
of the new variables, wherever the variables of the scope have values of their sorts. -/
theorem valid_iff {e : Expr} {ws S : List Var} (hS : OneType S) (hws : (Var.names ws).Nodup)
    (hfree : ∀ v ∈ e.free, v ∈ ws ∨ (v ∈ S ∧ v.name ∉ Var.names ws)) :
    I.Valid e ↔ ∀ σ : State, σ.Fits S → ∀ ds, Var.Typed ws ds → I.Holds (σ.bind ws ds) e := by
  have hone : OneType ws := fun v hv w hw hname => List.inj_on_of_nodup_map hws hv hw hname
  constructor
  · intro h σ hσ ds hds
    refine h _ fun v hv => ?_
    rcases hfree v hv with hv | ⟨hv, hn⟩
    · exact State.bind_ty hds (hone.binds hv)
    · rw [NameMap.bind_of_not_mem hn, hσ v hv]
  · intro h σ hσ
    obtain ⟨τ, hτ, hτσ⟩ := State.exists_fits hS σ
    obtain ⟨ρ, hρ, hρσ⟩ := State.exists_fits hone σ
    refine (holds_congr fun v hv => ?_).1 (h τ hτ (ρ.get ws) hρ.typed_get)
    rcases hfree v hv with hm | ⟨hm, hn⟩
    · rw [NameMap.bind_get_of_mem (name_mem_names hm), hρσ v hm (hσ v hv)]
    · rw [NameMap.bind_of_not_mem hn, hτσ v hm (hσ v hv)]

/-- The predicates mean what their definitions say. -/
def Satisfies (ps : Predicates) : Prop :=
  ∀ name q, ps.find? name = some q → ∀ (σ : State) (ds : List Datum), Var.Typed q.parameters ds →
    (I.pred name ds = true ↔ I.Holds (σ.bind q.parameters ds) q.body)

end Interp

namespace Program

/-- The predicates of a program, where a later definition of a name counts. -/
def table (p : Program) : Predicates := p.predicates.foldl Predicates.define []

/-- The formula is true in every state, whatever the predicates mean as long as it agrees with their
definitions. -/
def Valid (p : Program) (e : Expr) : Prop := ∀ I : Interp, I.Satisfies p.table → I.Valid e

end Program

end Cutpoint
