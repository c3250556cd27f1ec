import Mathlib.Data.List.Forall2
import Cutpoint.Expr.Typing
import Cutpoint.Expr.Subst
import Cutpoint.Proofs.Expr.Free

/-!
# Well-sorted expressions

* `Signature`: the sorts of the parameters of each predicate; `Predicates.signature`: those of a
  table of definitions;
* `Expr.sort? S e`: the sort of an expression whose operators have operands of the sorts that they
  expect, and whose predicates have arguments of the sorts of `S`. It is the sort that the root
  shows (`Expr.type?_of_sort?`);
* `Expr.sort?_binary_eq_some`, …: the sorts of the operands of each form;
* `Expr.WellSorted S e`: such an expression, with each bound variable used at the sort of its
  binder;
* `Predicate.Sorted S p`: the body is boolean and uses the parameters at their sorts.
-/

set_option autoImplicit false

namespace Cutpoint

/-- The sorts of the parameters of each predicate. -/
abbrev Signature := String → Option (List Ty)

/-! ## Operators -/

namespace UnOp

def operand : UnOp → Ty
  | not => .bool
  | neg => .int

/-- The sort of the result is that of the operand. -/
def sort? (op : UnOp) (t : Ty) : Option Ty := if t = op.operand then some t else none

end UnOp

namespace BinOp

/-- The sort of both operands, where the operator has one of its own. -/
def operand? : BinOp → Option Ty
  | add | sub | mul | div | mod | lt | le | gt | ge => some .int
  | and | or | implies | iff => some .bool
  | eq | ne => none

def result (op : BinOp) : Ty := if op.isArithmetic then .int else .bool

/-- The sort of the result for operands of the given sorts. -/
def sort? (op : BinOp) (s t : Ty) : Option Ty :=
  if s = t ∧ op.operand?.getD s = s then some op.result else none

theorem sort?_eq_some {op : BinOp} {s t u : Ty} (h : op.sort? s t = some u) :
    s = t ∧ op.operand?.getD s = s ∧ u = op.result := by
  unfold sort? at h
  split at h
  · next hs => exact ⟨hs.1, hs.2, (Option.some.inj h).symm⟩
  · cases h

end BinOp

/-! ## Expressions -/

namespace Expr

mutual

/-- The sort of a well-sorted expression. -/
def sort? (S : Signature) : Expr → Option Ty
  | bool _ => some .bool
  | int _ => some .int
  | var v => some v.ty
  | unary op e => (e.sort? S).bind op.sort?
  | binary op l r => (l.sort? S).bind fun s => (r.sort? S).bind (op.sort? s)
  | select a i => (a.sort? S).bind fun s => if i.sort? S = some .int then s.elem? else none
  | length a => (a.sort? S).bind fun s => if s.isArray then some .int else none
  | update a i v l =>
    (a.sort? S).bind fun s =>
      if i.sort? S = some .int ∧ s.elem? ≠ none ∧ v.sort? S = s.elem? ∧
        l.sort? S = some .int then some s else none
  | apply p es => if S p ≠ none ∧ sorts? S es = S p then some .bool else none
  | quant _ _ e => if e.sort? S = some .bool then some .bool else none

def sorts? (S : Signature) : List Expr → Option (List Ty)
  | [] => some []
  | e :: es => (e.sort? S).bind fun t => (sorts? S es).map (t :: ·)

end

section Forms
variable {S : Signature} {t : Ty}

theorem sort?_unary_eq_some {op : UnOp} {e : Expr} (h : (unary op e).sort? S = some t) :
    e.sort? S = some op.operand ∧ t = op.operand := by
  obtain ⟨s, hs, hop⟩ := Option.bind_eq_some_iff.1 (show (e.sort? S).bind op.sort? = some t from h)
  unfold UnOp.sort? at hop
  split at hop
  · next ho => exact ⟨ho ▸ hs, (Option.some.inj hop).symm.trans ho⟩
  · cases hop

theorem sort?_binary_eq_some {op : BinOp} {l r : Expr} (h : (binary op l r).sort? S = some t) :
    ∃ s, l.sort? S = some s ∧ r.sort? S = some s ∧ op.operand?.getD s = s ∧ t = op.result := by
  obtain ⟨s, hs, h'⟩ := Option.bind_eq_some_iff.1
    (show ((l.sort? S).bind fun s => (r.sort? S).bind (op.sort? s)) = some t from h)
  obtain ⟨u, hu, hop⟩ := Option.bind_eq_some_iff.1 h'
  obtain ⟨rfl, hoperand, ht⟩ := BinOp.sort?_eq_some hop
  exact ⟨s, hs, hu, hoperand, ht⟩

theorem sort?_select_eq_some {a i : Expr} (h : (select a i).sort? S = some t) :
    a.sort? S = some (.array t) ∧ i.sort? S = some .int := by
  obtain ⟨s, hs, h'⟩ := Option.bind_eq_some_iff.1
    (show ((a.sort? S).bind fun s => if i.sort? S = some .int then s.elem? else none) =
    some t from h)
  split at h'
  · next hi =>
    cases s with
    | array u => exact ⟨Option.some.inj h' ▸ hs, hi⟩
    | int | bool => cases h'
  · cases h'

theorem sort?_length_eq_some {a : Expr} (h : (length a).sort? S = some t) :
    (∃ u, a.sort? S = some (.array u)) ∧ t = .int := by
  obtain ⟨s, hs, h'⟩ := Option.bind_eq_some_iff.1
    (show ((a.sort? S).bind fun s => if s.isArray then some Ty.int else none) = some t from h)
  cases s with
  | array u => exact ⟨⟨u, hs⟩, (Option.some.inj h').symm⟩
  | int | bool => cases h'

theorem sort?_update_eq_some {a i v l : Expr} (h : (update a i v l).sort? S = some t) :
    ∃ u, t = .array u ∧ a.sort? S = some (.array u) ∧ i.sort? S = some .int ∧ v.sort? S = some u ∧
      l.sort? S = some .int := by
  obtain ⟨s, hs, h'⟩ := Option.bind_eq_some_iff.1
    (show ((a.sort? S).bind fun s =>
      if i.sort? S = some .int ∧ s.elem? ≠ none ∧ v.sort? S = s.elem? ∧
        l.sort? S = some .int then some s else none) = some t from h)
  split at h'
  · next hop =>
    obtain ⟨hi, hne, hv, hl⟩ := hop
    obtain rfl := Option.some.inj h'
    cases s with
    | array u => exact ⟨u, rfl, hs, hi, hv, hl⟩
    | int | bool => exact absurd rfl hne
  · cases h'

theorem sorts?_eq_some {es : List Expr} {ts : List Ty} (h : sorts? S es = some ts) :
    List.Forall₂ (fun e t => e.sort? S = some t) es ts := by
  induction es generalizing ts with
  | nil =>
    obtain rfl := Option.some.inj (show some [] = some ts from h)
    exact .nil
  | cons e es ih =>
    obtain ⟨u, hu, h'⟩ := Option.bind_eq_some_iff.1
      (show ((e.sort? S).bind fun t => (sorts? S es).map (t :: ·)) = some ts from h)
    obtain ⟨us, hus, rfl⟩ := Option.map_eq_some_iff.1 h'
    exact .cons hu (ih hus)

theorem sort?_apply_eq_some {p : String} {es : List Expr} (h : (apply p es).sort? S = some t) :
    ∃ ts, S p = some ts ∧ List.Forall₂ (fun e t => e.sort? S = some t) es ts ∧ t = .bool := by
  have h' : (if S p ≠ none ∧ sorts? S es = S p then some Ty.bool else none) = some t := h
  split at h'
  · next hp =>
    obtain ⟨ts, hts⟩ := Option.ne_none_iff_exists'.1 hp.1
    exact ⟨ts, hts, sorts?_eq_some (hp.2.trans hts), (Option.some.inj h').symm⟩
  · cases h'

theorem exists_sort?_of_mem {p : String} {es : List Expr} (h : (apply p es).sort? S = some t)
    {e : Expr} (he : e ∈ es) : ∃ u, e.sort? S = some u := by
  obtain ⟨ts, -, hts, -⟩ := sort?_apply_eq_some h
  have hboth : List.Forall₂ (fun e t => (∃ u, e.sort? S = some u) ∧ e.sort? S = some t) es ts :=
    hts.imp fun _ u hu => ⟨⟨u, hu⟩, hu⟩
  exact ((List.forall₂_and_left es ts).1 hboth).1 e he

theorem sort?_quant_eq_some {q : Quantifier} {bs : List Var} {e : Expr}
    (h : (quant q bs e).sort? S = some t) : e.sort? S = some .bool ∧ t = .bool := by
  have h' : (if e.sort? S = some .bool then some Ty.bool else none) = some t := h
  split at h'
  · next he => exact ⟨he, (Option.some.inj h').symm⟩
  · cases h'

end Forms

/-- The sort is the one that the root shows. -/
theorem type?_of_sort? {S : Signature} {e : Expr} {t : Ty} (h : e.sort? S = some t) :
    e.type? = some t := by
  induction e generalizing t with
  | bool b | int n | var v => exact h
  | unary op e => cases op <;> exact congrArg some (sort?_unary_eq_some h).2.symm
  | binary op l r =>
    obtain ⟨s, -, -, -, rfl⟩ := sort?_binary_eq_some h
    rfl
  | select a i ha =>
    have hsort := ha (sort?_select_eq_some h).1
    show a.type?.bind Ty.elem? = some t
    rw [hsort]
    rfl
  | length a => exact congrArg some (sort?_length_eq_some h).2.symm
  | update a i v l ha =>
    obtain ⟨u, rfl, hsort, -⟩ := sort?_update_eq_some h
    exact ha hsort
  | apply p es =>
    obtain ⟨ts, -, -, rfl⟩ := sort?_apply_eq_some h
    rfl
  | quant q bs e => exact congrArg some (sort?_quant_eq_some h).2.symm

/-- The expression has a sort, and below binders variables have the sorts of their binders. -/
def WellSorted (S : Signature) (e : Expr) : Prop := (∃ t, e.sort? S = some t) ∧ e.Scoped

end Expr

/-! ## Predicates -/

/-- The sorts of the parameters of the latest definitions. -/
def Predicates.signature (ps : Predicates) : Signature :=
  fun name => (ps.find? name).map fun p => p.parameters.map Var.ty

/-- The body is boolean and uses the parameters at their sorts. -/
def Predicate.Sorted (S : Signature) (p : Predicate) : Prop :=
  p.body.sort? S = some .bool ∧ (Expr.quant .all p.parameters p.body).Scoped

/-- All definitions are well-sorted. -/
def Predicates.Sorted (ps : Predicates) : Prop :=
  ∀ name p, ps.find? name = some p → p.Sorted ps.signature

end Cutpoint
