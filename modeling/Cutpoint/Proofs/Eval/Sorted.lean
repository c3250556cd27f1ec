import Cutpoint.Proofs.Eval.Exact

/-!
# Evaluation keeps sorts

* `Env.Fits env vs`: the variables `vs` have values of their sorts in the environment, where they
  have any;
* `Evaluator.evalWith_ty`: a value of a well-sorted expression has the sort of the expression;
* `Evaluator.invariant_sorted`: where formula and definitions are well-sorted, evaluation meets
  well-sorted expressions only, and applies predicates to arguments of the sorts of their
  parameters.
-/

set_option autoImplicit false

namespace Cutpoint

/-! ## Environments -/

namespace Env

/-- The value, if there is one, has the sort of the variable. -/
def FitsVar (v : Var) (r : Except EvalError Value) : Prop := ∀ x, r = .ok x → x.element.ty = v.ty

/-- The variables have values of their sorts, where they have any. -/
def Fits (env : Env) (vs : List Var) : Prop := NameMap.Fits FitsVar env.get? vs

theorem Fits.bind {env : Env} {bs vs : List Var} {xs : List Value}
    (hty : Element.Typed bs (xs.map Value.element))
    (hin : ∀ v ∈ vs, v.name ∈ Var.names bs → Var.Binds bs v)
    (hout : ∀ v ∈ vs, v.name ∉ Var.names bs → FitsVar v (env.get? v.name)) :
    (env.bind bs xs).Fits vs := by
  have hfits : List.Forall₂ FitsVar bs (xs.map .ok) := by
    rw [List.forall₂_map_right_iff]
    refine (List.forall₂_map_right_iff.1 hty.forall₂).imp fun v x hx y hy => ?_
    rw [← Except.ok.inj hy, hx]
  rw [Fits, get?_bind]
  exact NameMap.Fits.bind hfits hin hout

end Env

/-! ## Values -/

theorem UnOp.eval_ty {op : UnOp} {v w : Value} (h : op.eval v = .ok w) :
    w.element.ty = op.operand := by
  rw [← UnOp.eval_exact (M := default) h, UnOp.meaning_ty]

theorem BinOp.complete_ty {op : BinOp} {v w : Value} {right : Except EvalError Value}
    (h : op.complete v right = .ok w) : w.element.ty = op.result := by
  cases right with
  | ok x =>
    rw [← BinOp.complete_exact (M := default) h fun y hy =>
      congrArg Value.element (Except.ok.inj hy), BinOp.meaning_ty]
  | error e =>
    rw [← BinOp.complete_exact (M := default) (d := .int 0) h (fun y hy => by cases hy),
      BinOp.meaning_ty]

namespace Evaluator
variable {ev : Evaluator} {enter : Enter} {S : Signature}

/-- The sorts of the values of arguments. -/
def sorts (xs : List Value) : List Ty := xs.map fun x => x.element.ty

/-- Applications to arguments of the right sorts give truth values. -/
def EnterSorted (S : Signature) (enter : Enter) : Prop :=
  ∀ p xs, S p = some (sorts xs) → ∀ body, enter p xs.length = .ok body → ∀ v, body xs = .ok v →
    v.element.ty = .bool

/-- Arguments of the sorts of a list have values of these sorts if each argument keeps its sort. -/
theorem sorts_of_forall₂ {es : List Expr} {ts : List Ty} {xs : List Value} {env : Env}
    (hts : List.Forall₂ (fun e t => e.sort? S = some t) es ts)
    (hxs : List.Forall₂ (fun e x => evalWith ev enter e env = .ok x) es xs)
    (h : ∀ e ∈ es, ∀ t, e.sort? S = some t → ∀ x, evalWith ev enter e env = .ok x →
      x.element.ty = t) : sorts xs = ts := by
  induction hts generalizing xs with
  | nil =>
    cases hxs
    rfl
  | cons ht _ ih =>
    cases hxs with
    | cons hx hxs =>
      rw [sorts, List.map_cons, h _ List.mem_cons_self _ ht _ hx, ← sorts,
        ih hxs fun e he => h e (List.mem_cons_of_mem _ he)]

/-- A value of a well-sorted expression has the sort of the expression. -/
theorem evalWith_ty (henter : EnterSorted S enter) {e : Expr} {env : Env} {t : Ty} {v : Value}
    (ht : e.sort? S = some t) (henv : env.Fits e.free) (h : evalWith ev enter e env = .ok v) :
    v.element.ty = t := by
  induction e generalizing t v with
  | bool b | int n =>
    obtain rfl := Except.ok.inj h
    exact Option.some.inj ht
  | var w => exact (henv w (by simp) v h).trans (Option.some.inj ht)
  | unary op e =>
    rw [evalWith_unary] at h
    obtain ⟨x, -, h⟩ := bind_eq_ok.1 h
    rw [(Expr.sort?_unary_eq_some ht).2, UnOp.eval_ty h]
  | binary op l r =>
    rw [evalWith_binary] at h
    obtain ⟨x, -, h⟩ := bind_eq_ok.1 h
    obtain ⟨s, -, -, -, rfl⟩ := Expr.sort?_binary_eq_some ht
    exact BinOp.complete_ty h
  | select a i | length a | update a i w l => cases h
  | apply p es ih =>
    rw [evalWith_apply] at h
    obtain ⟨body, hbody, h⟩ := bind_eq_ok.1 h
    obtain ⟨xs, hxs, h⟩ := bind_eq_ok.1 h
    obtain ⟨ts, hS, hts, rfl⟩ := Expr.sort?_apply_eq_some ht
    have hargs := forall₂_of_mapM_ok hxs
    have hsorts : sorts xs = ts := sorts_of_forall₂ hts hargs fun e he t ht x hx =>
      ih e he ht (henv.mono fun v hv => (Expr.mem_free_apply p es).2 ⟨e, he, hv⟩) hx
    exact henter p xs (hsorts ▸ hS) body (hargs.length_eq ▸ hbody) v h
  | quant q bs e =>
    rw [evalWith_quant] at h
    obtain ⟨b, -, h⟩ := bind_eq_ok.1 h
    obtain rfl := Except.ok.inj h
    exact (Expr.sort?_quant_eq_some ht).2.symm

theorem signature_of_find? {ps : Predicates} {name : String} {p : Predicate}
    (h : ps.find? name = some p) : ps.signature name = some (p.parameters.map Var.ty) := by
  rw [Predicates.signature, h, Option.map_some]

theorem typed_of_signature {ps : Predicates} {name : String} {p : Predicate}
    (hp : ps.find? name = some p) {xs : List Value} (hxs : ps.signature name = some (sorts xs)) :
    Element.Typed p.parameters (xs.map Value.element) := by
  rw [Element.Typed, Var.TypedBy, List.map_map]
  exact Option.some.inj (hxs.symm.trans (signature_of_find? hp))

/-- A body in a frame with arguments of the sorts of the parameters. -/
theorem fits_ofParameters {p : Predicate} (hp : (Expr.quant .all p.parameters p.body).Scoped)
    {xs : List Value} (hty : Element.Typed p.parameters (xs.map Value.element)) :
    (Env.ofParameters p.parameters xs).Fits p.body.free := by
  have hbind : (Env.bind [] p.parameters xs).Fits p.body.free :=
    Env.Fits.bind hty hp.2 fun v _ _ x hx => by cases hx
  rwa [Env.bind, List.append_nil] at hbind

theorem enterAt_sorted (hps : ev.predicates.Sorted) (depth : Nat) :
    EnterSorted ev.predicates.signature (enterAt ev depth) := by
  induction depth with
  | zero =>
    intro p xs _ body hbody
    cases hbody
  | succ depth ih =>
    intro p xs hS body hbody v hv
    unfold enterAt at hbody
    split at hbody
    · cases hbody
    · next d hfind =>
      split at hbody
      · obtain rfl := Except.ok.inj hbody
        obtain ⟨hsort, hscoped⟩ := hps p d hfind
        exact evalWith_ty ih hsort (fits_ofParameters hscoped (typed_of_signature hfind hS)) hv
      · cases hbody

/-- A well-sorted expression in an environment that fits it. -/
structure SortedIn (S : Signature) (e : Expr) (env : Env) : Prop where
  sort : ∃ t, e.sort? S = some t
  inScope : e.Scoped
  fits : env.Fits e.free

theorem sortedIn_body {ps : Predicates} (hps : ps.Sorted) {name : String} {p : Predicate}
    (hp : ps.find? name = some p) {xs : List Value} (hxs : ps.signature name = some (sorts xs)) :
    SortedIn ps.signature p.body (.ofParameters p.parameters xs) := by
  obtain ⟨hsort, hscoped⟩ := hps name p hp
  exact ⟨⟨_, hsort⟩, hscoped.1, fits_ofParameters hscoped (typed_of_signature hp hxs)⟩

theorem invariant_sorted (hps : ev.predicates.Sorted) (depth : Nat) :
    ev.Invariant (enterAt ev depth) (fun p xs => ev.predicates.signature p = some (sorts xs))
      (SortedIn ev.predicates.signature) where
  unary := by
    rintro op e env ⟨⟨t, ht⟩, hscoped, hfits⟩
    exact ⟨⟨_, (Expr.sort?_unary_eq_some ht).1⟩, hscoped, hfits.mono fun v hv => by simpa using hv⟩
  left := by
    rintro op l r env ⟨⟨t, ht⟩, hscoped, hfits⟩
    obtain ⟨s, hl, -⟩ := Expr.sort?_binary_eq_some ht
    exact ⟨⟨s, hl⟩, hscoped.1, hfits.mono fun v hv => by simp [hv]⟩
  right := by
    rintro op l r env ⟨⟨t, ht⟩, hscoped, hfits⟩
    obtain ⟨s, -, hr, -⟩ := Expr.sort?_binary_eq_some ht
    exact ⟨⟨s, hr⟩, hscoped.2, hfits.mono fun v hv => by simp [hv]⟩
  args := by
    rintro p es env ⟨⟨t, ht⟩, hscoped, hfits⟩ e he
    exact ⟨Expr.exists_sort?_of_mem ht he, Expr.scopedAll_iff.1 hscoped e he,
      hfits.mono fun v hv => (Expr.mem_free_apply p es).2 ⟨e, he, hv⟩⟩
  body := by
    rintro q bs e env ⟨⟨t, ht⟩, hscoped, hfits⟩ xs hxs
    exact ⟨⟨_, (Expr.sort?_quant_eq_some ht).1⟩, hscoped.1, Env.Fits.bind hxs hscoped.2
      fun v hv hn => hfits v ((Expr.mem_free_quant q bs e).2 ⟨hv, hn⟩)⟩
  applied := by
    rintro p es env ⟨⟨t, ht⟩, hscoped, hfits⟩ xs hxs
    obtain ⟨ts, hS, hts, -⟩ := Expr.sort?_apply_eq_some ht
    have hsorts : sorts xs = ts := sorts_of_forall₂ hts hxs fun e he t ht x hx =>
      evalWith_ty (enterAt_sorted hps depth) ht
        (hfits.mono fun v hv => (Expr.mem_free_apply p es).2 ⟨e, he, hv⟩) hx
    exact hsorts ▸ hS

end Evaluator

end Cutpoint
