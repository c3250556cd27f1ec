import Cutpoint.Expr.Eval
import Cutpoint.Proofs.Expr.Semantics

/-!
# Environments and the forms of evaluation

* `Env.bind env bs xs`: the environment with values for binders; `Env.get?_bind`: as a map from
  names it is a change of the map;
* `Evaluator.evalWith_unary`, …: evaluation form by form, as a chain of binds;
* `Evaluator.quantify_congr`: a quantifier depends on what its body gives for each list of values,
  not on the names of its binders;
* `Evaluator.semantics`: evaluation is compositional. So the value of an expression, or its error,
  depends on the names that are free in it (`Evaluator.evalWith_congr`), and a substitution is a
  change of the environment (`Evaluator.evalWith_subst`), where a name may be unbound.
-/

set_option autoImplicit false

namespace Cutpoint

/-! ## Environments -/

namespace Env

/-- The environment with values for the given variables. Of variables with the same name the last
one counts. -/
def bind (env : Env) (bs : List Var) (xs : List Value) : Env := Env.ofParameters bs xs ++ env

theorem get?_nil (x : String) : get? [] x = .error (.unbound x) := rfl

theorem get?_cons (y : String) (v : Value) (env : Env) (x : String) :
    get? ((y, v) :: env) x = if y = x then .ok v else env.get? x := by
  unfold get?
  rw [List.find?_cons]
  by_cases h : y = x
  · simp [h]
  · simp [h]

theorem bind_nil (env : Env) (xs : List Value) : env.bind [] xs = env := rfl

theorem bind_cons (env : Env) (b : Var) (bs : List Var) (x : Value) (xs : List Value) :
    env.bind (b :: bs) (x :: xs) = Env.bind ((b.name, x) :: env) bs xs := by
  simp [bind, ofParameters, Var.names]

/-- Names have what stands beside the last variables of the names, or else what they had before. -/
theorem get?_bind (env : Env) (bs : List Var) (xs : List Value) :
    (env.bind bs xs).get? = NameMap.bind env.get? bs (xs.map .ok) := by
  induction bs generalizing env xs with
  | nil => rw [bind_nil, NameMap.bind_nil]
  | cons b bs ih =>
    cases xs with
    | nil => rfl
    | cons y ys =>
      funext x
      rw [bind_cons, ih, List.map_cons, NameMap.bind, NameMap.bind, Var.lookup_cons]
      cases Var.lookup bs (ys.map Except.ok) x with
      | some v => rfl
      | none =>
        rw [Option.none_or, Option.getD_none, get?_cons]
        split <;> rfl

theorem get?_append (σ τ : Env) (x : String) :
    get? (σ ++ τ) x = match σ.get? x with
      | .ok v => .ok v
      | .error _ => τ.get? x := by
  induction σ with
  | nil => rfl
  | cons p σ ih =>
    rw [List.cons_append, get?_cons, get?_cons, ih]
    by_cases h : p.1 = x
    · rw [if_pos h, if_pos h]
    · rw [if_neg h, if_neg h]

theorem get?_cases (σ : Env) (x : String) :
    (∃ v, σ.get? x = .ok v) ∨ σ.get? x = .error (.unbound x) := by
  induction σ with
  | nil => exact Or.inr rfl
  | cons p σ ih =>
    rw [get?_cons]
    by_cases h : p.1 = x
    · exact Or.inl ⟨p.2, if_pos h⟩
    · rwa [if_neg h]

theorem get?_filter (σ : Env) (k : String → Bool) (x : String) :
    get? (σ.filter fun p => k p.1) x = if k x then σ.get? x else .error (.unbound x) := by
  induction σ with
  | nil => simp [get?_nil]
  | cons p σ ih =>
    rw [List.filter_cons, get?_cons]
    by_cases hx : p.1 = x
    · subst hx
      by_cases hk : k p.1
      · rw [if_pos hk, get?_cons, if_pos rfl, if_pos hk, if_pos rfl]
      · rw [if_neg hk, ih, if_neg hk, if_neg hk]
    · rw [if_neg hx]
      by_cases hk : k p.1
      · rw [if_pos hk, get?_cons, if_neg hx, ih]
      · rw [if_neg hk, ih]

/-- An environment can be like one for some names, and like another for the rest. -/
theorem exists_mixed (k : String → Bool) (σ τ : Env) :
    ∃ env : Env, ∀ x, env.get? x = if k x then τ.get? x else σ.get? x := by
  refine ⟨(τ.filter fun p => k p.1) ++ σ.filter fun p => !k p.1, fun x => ?_⟩
  rw [get?_append, get?_filter, get?_filter σ fun y => !k y]
  by_cases hx : k x
  · rw [if_pos hx, if_pos hx, if_neg (by simp [hx])]
    rcases get?_cases τ x with ⟨v, hv⟩ | hu
    · rw [hv]
    · rw [hu]
  · rw [if_neg hx, if_neg hx, if_pos (by simp [hx])]

end Env

/-! ## Forms -/

/-- What a binary operator gives for its left operand, where the right one is looked at only if the
left one leaves the answer open. -/
def BinOp.complete (op : BinOp) (v : Value) (right : Except EvalError Value) :
    Except EvalError Value :=
  op.decided? v >>= fun d => d.elim (right >>= op.eval v) .ok

theorem mapM_congr {ε α β : Type} {f g : α → Except ε β} {as bs : List α}
    (h : as.map f = bs.map g) : as.mapM f = bs.mapM g := by
  have hmap : ∀ (f : α → Except ε β) (as : List α), as.mapM f = (as.map f).mapM fun r => r :=
    fun f as => by
      rw [List.mapM_map]
      rfl
  rw [hmap f, hmap g, h]

namespace Evaluator
variable (ev : Evaluator) (enter : Enter)

section Forms
variable (env : Env)

theorem evalWith_unary (op : UnOp) (e : Expr) :
    evalWith ev enter (.unary op e) env = evalWith ev enter e env >>= op.eval := rfl

theorem evalWith_binary (op : BinOp) (l r : Expr) :
    evalWith ev enter (.binary op l r) env =
      evalWith ev enter l env >>= fun v => op.complete v (evalWith ev enter r env) := by
  show (evalWith ev enter l env >>= _) = _
  refine bind_congr fun v => ?_
  show (op.decided? v >>= _) = op.decided? v >>= _
  refine bind_congr fun d => ?_
  cases d <;> rfl

theorem evalArgs_eq_mapM (es : List Expr) :
    evalArgs ev enter es env = es.mapM fun e => evalWith ev enter e env := by
  induction es with
  | nil => rfl
  | cons e es ih =>
    rw [List.mapM_cons, ← ih]
    rfl

theorem evalWith_apply (p : String) (es : List Expr) :
    evalWith ev enter (.apply p es) env =
      enter p es.length >>= fun body => (es.mapM fun e => evalWith ev enter e env) >>= body := by
  rw [← evalArgs_eq_mapM]
  rfl

theorem evalWith_quant (q : Quantifier) (bs : List Var) (e : Expr) :
    evalWith ev enter (.quant q bs e) env =
      ev.quantify q (fun env' => evalWith ev enter e env' >>= Value.bool?) bs env >>=
        fun b => .ok (.bool b) := rfl

end Forms

/-! ## Congruence -/

/-- A quantifier depends on what its body gives for each list of values for its binders. -/
theorem quantify_congr {q : Quantifier} {f g : Env → Except EvalError Bool}
    {bs cs : List Var} {σ τ : Env} (hty : bs.map Var.ty = cs.map Var.ty)
    (h : ∀ xs, xs.length = bs.length → f (σ.bind bs xs) = g (τ.bind cs xs)) :
    ev.quantify q f bs σ = ev.quantify q g cs τ := by
  induction bs generalizing cs σ τ with
  | nil =>
    obtain rfl : cs = [] := by simpa using hty.symm
    exact h [] rfl
  | cons b bs ih =>
    obtain ⟨c, cs, rfl⟩ : ∃ c cs', cs = c :: cs' := by
      cases cs with
      | nil => simp at hty
      | cons c cs => exact ⟨c, cs, rfl⟩
    simp only [List.map_cons, List.cons.injEq] at hty
    obtain ⟨hb, hbs⟩ := hty
    -- one value more in front of both environments
    have hstep : ∀ x : Value, ev.quantify q f bs ((b.name, x) :: σ) =
        ev.quantify q g cs ((c.name, x) :: τ) := by
      intro x
      refine ih hbs fun xs hxs => ?_
      have hxs' := h (x :: xs) (by simpa using hxs)
      rwa [Env.bind_cons, Env.bind_cons] at hxs'
    unfold quantify
    rw [← hb]
    cases b.ty with
    | int => exact congrArg (fun k => scan q.decider k _ _) (funext fun n => hstep (.int n))
    | bool => simp only [hstep]
    | array t => rfl

/-! ## Semantics -/

/-- Evaluation, with its errors, is compositional. -/
def semantics : Semantics Env Value (Except EvalError Value) where
  look := Env.get?
  bind := Env.bind
  given := .ok
  value env e := evalWith ev enter e env
  look_bind := Env.get?_bind
  exists_mixed := Env.exists_mixed
  value_bool _ _ _ := rfl
  value_int _ _ _ := rfl
  value_var _ _ := rfl
  value_unary op h := by rw [evalWith_unary, evalWith_unary, h]
  value_binary op hl hr := by rw [evalWith_binary, evalWith_binary, hl, hr]
  value_select _ _ := rfl
  value_length _ := rfl
  value_update _ _ _ _ := rfl
  value_apply p h := by
    have hlen := congrArg List.length h
    rw [List.length_map, List.length_map] at hlen
    rw [evalWith_apply, evalWith_apply, hlen, mapM_congr h]
  value_quant q hty h := by
    rw [evalWith_quant, evalWith_quant]
    congr 1
    refine ev.quantify_congr hty fun xs hxs => ?_
    rw [h xs hxs]

/-- The value of an expression, or its error, depends on the names that are free in it. -/
theorem evalWith_congr {e : Expr} {σ τ : Env} (h : ∀ v ∈ e.free, σ.get? v.name = τ.get? v.name) :
    evalWith ev enter e σ = evalWith ev enter e τ :=
  (ev.semantics enter).value_congr h

/-- A substituted expression has the value, or the error, of the expression where the names of its
free variables have what became of the variables. -/
theorem evalWith_subst {s : Subst} {e : Expr} {σ τ : Env} (he : e.Scoped)
    (h : ∀ v ∈ e.free, τ.get? v.name = evalWith ev enter (s.image v) σ) :
    evalWith ev enter (e.subst s) σ = evalWith ev enter e τ :=
  (ev.semantics enter).value_subst he h

end Evaluator

end Cutpoint
