import Cutpoint.Proofs.Meaning.Model

/-!
# Values of well-sorted expressions

* `Expr.shown`: the parts of an expression that its value depends on. The length of an update is the
  one that it carries, whatever its array, index and value are, and apart from that the carried
  length does not matter;
* `Expr.inductShown`: induction over these parts;
* `Model.value_ty`: the value of a well-sorted expression has the sort of the expression, in a model
  whose predicates are true or false.
-/

set_option autoImplicit false

namespace Cutpoint

/-! ## Shown parts -/

namespace Expr

mutual

/-- The expression without the parts that its value does not depend on: the length of an update
stands for itself, and an update has no length of its own. -/
def shown : Expr → Expr
  | bool b => bool b
  | int n => int n
  | var v => var v
  | unary op e => unary op e.shown
  | binary op l r => binary op l.shown r.shown
  | select a i => select a.shown i.shown
  | length (update _ _ _ l) => l.shown
  | length a => length a.shown
  | update a i v _ => update a.shown i.shown v.shown (int 0)
  | apply p es => apply p (shownAll es)
  | quant q bs e => quant q bs e.shown

def shownAll : List Expr → List Expr
  | [] => []
  | e :: es => e.shown :: shownAll es

end

theorem mem_shownAll {es : List Expr} {f : Expr} : f ∈ shownAll es ↔ ∃ e ∈ es, f = e.shown := by
  induction es with
  | nil => simp [shownAll]
  | cons e es ih => simp [shownAll, ih]

/-- The expression is no update. -/
def Steady (a : Expr) : Prop := ∀ b i v l, a ≠ update b i v l

theorem shown_length {a : Expr} (h : a.Steady) : (length a).shown = length a.shown := by
  cases a with
  | update b i v l => exact absurd rfl (h b i v l)
  | _ => rfl

/-- Induction over the shown parts. -/
theorem inductShown {P : Expr → Prop} (bool : ∀ b, P (bool b)) (int : ∀ n, P (int n))
    (var : ∀ v, P (var v)) (unary : ∀ op e, P e → P (unary op e))
    (binary : ∀ op l r, P l → P r → P (binary op l r)) (select : ∀ a i, P a → P i → P (select a i))
    (lengthUpdate : ∀ a i v l, P l → P (length (update a i v l)))
    (length : ∀ a, a.Steady → P a → P (length a))
    (update : ∀ a i v l, P a → P i → P v → P (update a i v l))
    (apply : ∀ p es, (∀ e ∈ es, P e) → P (apply p es)) (quant : ∀ q bs e, P e → P (quant q bs e))
    (e : Expr) : P e := by
  -- what is carried by an update stands two steps below its length
  have both : P e ∧ ∀ a i v l, e = .update a i v l → P l := by
    induction e with
    | bool b => exact ⟨bool b, fun _ _ _ _ h => by cases h⟩
    | int n => exact ⟨int n, fun _ _ _ _ h => by cases h⟩
    | var v => exact ⟨var v, fun _ _ _ _ h => by cases h⟩
    | unary op e ih => exact ⟨unary op e ih.1, fun _ _ _ _ h => by cases h⟩
    | binary op l r hl hr => exact ⟨binary op l r hl.1 hr.1, fun _ _ _ _ h => by cases h⟩
    | select a i ha hi => exact ⟨select a i ha.1 hi.1, fun _ _ _ _ h => by cases h⟩
    | length a ih =>
      refine ⟨?_, fun _ _ _ _ h => by cases h⟩
      by_cases h : ∃ b i v l, a = .update b i v l
      · obtain ⟨b, i, v, l, rfl⟩ := h
        exact lengthUpdate b i v l (ih.2 b i v l rfl)
      · exact length a (fun b i v l heq => h ⟨b, i, v, l, heq⟩) ih.1
    | update a i v l ha hi hv hl =>
      refine ⟨update a i v l ha.1 hi.1 hv.1, fun _ _ _ _ h => ?_⟩
      cases h
      exact hl.1
    | apply p es ih => exact ⟨apply p es fun e he => (ih e he).1, fun _ _ _ _ h => by cases h⟩
    | quant q bs e ih => exact ⟨quant q bs e ih.1, fun _ _ _ _ h => by cases h⟩
  exact both.1

end Expr

/-! ## Values -/

namespace Model
variable {M : Model} {S : Signature} {σ : Valuation}

theorem value_unary (op : UnOp) (e : Expr) : M.value σ (.unary op e) = op.meaning M (M.value σ e) :=
  rfl

theorem value_binary (op : BinOp) (l r : Expr) :
    M.value σ (.binary op l r) = op.meaning M (M.value σ l) (M.value σ r) := rfl

theorem value_select (a i : Expr) :
    M.value σ (.select a i) = M.select (M.value σ a) (M.value σ i) := rfl

theorem value_length_update (a i v l : Expr) :
    M.value σ (.length (.update a i v l)) = M.value σ l := rfl

theorem value_length {a : Expr} (h : a.Steady) :
    M.value σ (.length a) = .int (M.length (M.value σ a)) := by
  cases a with
  | update b i v l => exact absurd rfl (h b i v l)
  | _ => rfl

theorem value_update (a i v l : Expr) :
    M.value σ (.update a i v l) = M.store (M.value σ a) (M.value σ i) (M.value σ v) := rfl

theorem value_apply (p : String) (es : List Expr) :
    M.value σ (.apply p es) = M.pred p (es.map (M.value σ)) :=
  M.valueIn_apply _ σ p es

open Classical in
theorem value_quant (q : Quantifier) (bs : List Var) (e : Expr) :
    M.value σ (.quant q bs e) = .bool (decide (q.Among (Element.Typed bs) fun ds =>
      M.toBool (M.value (σ.bind bs ds) e) = true)) := by
  have hranges : Element.Ranges (fun _ => True) bs = Element.Typed bs := by
    funext ds
    exact propext ⟨fun h => h.1, fun h => ⟨h, fun _ _ => trivial⟩⟩
  show M.valueIn _ σ (.quant q bs e) = _
  rw [valueIn_quant, hranges]
  rfl

theorem select_ty {c d : Element} {t : Ty} (h : c.ty = .array t) : (M.select c d).ty = t := by
  obtain ⟨f, rfl⟩ := Element.eq_array h
  rfl

theorem store_ty {c i d : Element} {t : Ty} (h : c.ty = .array t) :
    (M.store c i d).ty = .array t := by
  obtain ⟨f, rfl⟩ := Element.eq_array h
  rfl

/-- The predicates are true or false for arguments of their sorts. -/
def Sorted (M : Model) (S : Signature) : Prop :=
  ∀ p ds, S p = some (ds.map Element.ty) → (M.pred p ds).ty = .bool

/-- The values of arguments of the sorts of a list have these sorts if each argument has. -/
theorem map_value_ty {es : List Expr} {ts : List Ty}
    (hts : List.Forall₂ (fun e t => e.sort? S = some t) es ts)
    (h : ∀ e ∈ es, ∀ t, e.sort? S = some t → (M.value σ e).ty = t) :
    (es.map (M.value σ)).map Element.ty = ts := by
  induction hts with
  | nil => rfl
  | cons ht _ ih =>
    rw [List.map_cons, List.map_cons, h _ List.mem_cons_self _ ht,
      ih fun e he => h e (List.mem_cons_of_mem _ he)]

/-- The value of a well-sorted expression has the sort of the expression. -/
theorem value_ty (hM : M.Sorted S) {e : Expr} {t : Ty} (ht : e.sort? S = some t)
    (hσ : σ.Fits e.shown.free) : (M.value σ e).ty = t := by
  induction e using Expr.inductShown generalizing t with
  | bool b | int n => exact Option.some.inj ht
  | var v => exact (hσ v (Expr.mem_free_var.2 rfl)).trans (Option.some.inj ht)
  | unary op e => rw [value_unary, UnOp.meaning_ty, (Expr.sort?_unary_eq_some ht).2]
  | binary op l r =>
    obtain ⟨s, -, -, -, rfl⟩ := Expr.sort?_binary_eq_some ht
    rw [value_binary, BinOp.meaning_ty]
  | select a i ha =>
    rw [value_select]
    exact select_ty
      (ha (Expr.sort?_select_eq_some ht).1 (hσ.mono fun v hv => by simp [Expr.shown, hv]))
  | lengthUpdate a i v l hl =>
    obtain ⟨⟨u, hu⟩, rfl⟩ := Expr.sort?_length_eq_some ht
    obtain ⟨w, -, -, -, -, hcarried⟩ := Expr.sort?_update_eq_some hu
    rw [value_length_update]
    exact hl hcarried hσ
  | length a hsteady => rw [value_length hsteady, Element.int_ty, (Expr.sort?_length_eq_some ht).2]
  | update a i v l ha =>
    obtain ⟨u, rfl, hsort, -⟩ := Expr.sort?_update_eq_some ht
    rw [value_update]
    exact store_ty (ha hsort (hσ.mono fun v hv => by simp [Expr.shown, hv]))
  | apply p es ih =>
    obtain ⟨ts, hS, hts, rfl⟩ := Expr.sort?_apply_eq_some ht
    rw [value_apply]
    refine hM p _ (hS.trans (congrArg some (map_value_ty hts fun e he t ht => ?_).symm))
    exact ih e he ht (hσ.mono fun v hv =>
      (Expr.mem_free_apply p _).2 ⟨e.shown, Expr.mem_shownAll.2 ⟨e, he, rfl⟩, hv⟩)
  | quant q bs e => rw [value_quant, Element.bool_ty, (Expr.sort?_quant_eq_some ht).2]

end Model

end Cutpoint
