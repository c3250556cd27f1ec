import Cutpoint.Proofs.Eval.Exact
import Cutpoint.Proofs.Eval.Subst

/-!
# Applying a predicate and instantiating it

An application evaluates the arguments first and then the body, one level deeper and with nothing
but the parameters in scope. An instance has the arguments below the binders of the body and is
evaluated where the application stands. Where the application has a value, the instance has the
same.

* `Kept`: an answer stays, an error may become anything;
* `Evaluator.evalWith_kept`: a value stays if more names have values and more applications are
  answered;
* `Evaluator.enterAt_kept`: more applications are answered one level further up;
* `Evaluator.eval_instantiate`: the value of an application is that of the instance.
-/

set_option autoImplicit false

namespace Cutpoint

/-! ## Answers that stay -/

/-- An answer of `r` is the answer of `r'` as well. -/
def Kept {α : Type} (r r' : Except EvalError α) : Prop := ∀ a, r = .ok a → r' = .ok a

namespace Kept
variable {α β : Type}

theorem refl (r : Except EvalError α) : Kept r r := fun _ h => h

theorem error (err : EvalError) (r : Except EvalError α) : Kept (.error err) r := nofun

theorem bind {r r' : Except EvalError α} {f f' : α → Except EvalError β} (hr : Kept r r')
    (hf : ∀ a, Kept (f a) (f' a)) : Kept (r >>= f) (r' >>= f') := by
  intro b h
  obtain ⟨a, ha, hb⟩ := bind_eq_ok.1 h
  exact bind_eq_ok.2 ⟨a, hr a ha, hf a b hb⟩

theorem mapM {f f' : α → Except EvalError β} {as : List α} (h : ∀ a ∈ as, Kept (f a) (f' a)) :
    Kept (as.mapM f) (as.mapM f') := by
  induction as with
  | nil => exact refl _
  | cons a as ih =>
    rw [List.mapM_cons, List.mapM_cons]
    refine (h a List.mem_cons_self).bind fun b => ?_
    exact (ih fun a' ha' => h a' (List.mem_cons_of_mem _ ha')).bind fun bs => refl _

end Kept

theorem BinOp.complete_kept (op : BinOp) (v : Value) {r r' : Except EvalError Value}
    (h : Kept r r') : Kept (op.complete v r) (op.complete v r') := by
  refine (Kept.refl _).bind fun d => ?_
  cases d with
  | none => exact h.bind fun w => .refl _
  | some w => exact .refl _

/-- Whatever `enter` answers to an application, `enter'` answers as well. -/
def Evaluator.Enter.Kept (enter enter' : Enter) : Prop :=
  ∀ p n body, enter p n = .ok body → ∃ body', enter' p n = .ok body' ∧
    ∀ xs, Cutpoint.Kept (body xs) (body' xs)

/-- A name that gets a value has it whatever it had before. -/
theorem Env.get?_bind_kept {σ τ : Env} {bs : List Var} {xs : List Value} {x : String}
    (hlen : xs.length = bs.length) (h : x ∉ Var.names bs → Kept (σ.get? x) (τ.get? x)) :
    Kept ((σ.bind bs xs).get? x) ((τ.bind bs xs).get? x) := by
  rw [get?_bind, get?_bind]
  by_cases hx : x ∈ Var.names bs
  · rw [NameMap.bind_congr (by simp [hlen]) (absurd hx)]
    exact .refl _
  · rw [NameMap.bind_of_not_mem hx, NameMap.bind_of_not_mem hx]
    exact h hx

theorem Env.get?_append_kept (σ τ : Env) (x : String) : Kept (σ.get? x) ((σ ++ τ).get? x) := by
  intro v h
  rw [get?_append, h]

namespace Evaluator
variable (ev : Evaluator)

theorem scan_kept (stop : Bool) {f g : Int → Except EvalError Bool} (h : ∀ n, Kept (f n) (g n))
    (count : Nat) (n : Int) : Kept (scan stop f count n) (scan stop g count n) := by
  induction count generalizing n with
  | zero => exact .refl _
  | succ count ih =>
    refine (h n).bind fun b => ?_
    split
    · exact .refl _
    · exact ih (n + 1)

theorem quantify_kept (q : Quantifier) {f g : Env → Except EvalError Bool} {bs : List Var}
    {σ τ : Env} (h : ∀ xs, xs.length = bs.length → Kept (f (σ.bind bs xs)) (g (τ.bind bs xs))) :
    Kept (ev.quantify q f bs σ) (ev.quantify q g bs τ) := by
  induction bs generalizing σ τ with
  | nil => exact h [] rfl
  | cons b bs ih =>
    -- one value more in front of both environments
    have hstep : ∀ x : Value, Kept (ev.quantify q f bs ((b.name, x) :: σ))
        (ev.quantify q g bs ((b.name, x) :: τ)) := by
      intro x
      refine ih fun xs hxs => ?_
      have hxs' := h (x :: xs) (by simpa using hxs)
      rwa [Env.bind_cons, Env.bind_cons] at hxs'
    unfold quantify
    cases b.ty with
    | int => exact scan_kept _ (fun n => hstep (.int n)) _ _
    | bool =>
      refine (hstep (.bool false)).bind fun c => ?_
      split
      · exact .refl _
      · exact hstep (.bool true)
    | array t => exact .error _ _

variable {enter enter' : Enter}

/-- A value stays if the free names that have values keep them, and applications that are answered
keep their answers. -/
theorem evalWith_kept {e : Expr} {σ τ : Env} (henter : enter.Kept enter')
    (h : ∀ v ∈ e.free, Kept (σ.get? v.name) (τ.get? v.name)) :
    Kept (evalWith ev enter e σ) (evalWith ev enter' e τ) := by
  induction e generalizing σ τ with
  | bool b | int n | select a i | length a | update a i v l => exact .refl _
  | var v => exact h v (by simp)
  | unary op e ih =>
    rw [evalWith_unary, evalWith_unary]
    exact (ih fun v hv => h v (by simpa using hv)).bind fun v => .refl _
  | binary op l r hl hr =>
    rw [evalWith_binary, evalWith_binary]
    exact (hl fun v hv => h v (by simp [hv])).bind fun v =>
      op.complete_kept v (hr fun v hv => h v (by simp [hv]))
  | apply p es ih =>
    rw [evalWith_apply, evalWith_apply]
    intro x hx
    obtain ⟨body, hbody, hx⟩ := bind_eq_ok.1 hx
    obtain ⟨body', hbody', hkept⟩ := henter p es.length body hbody
    have hargs : Kept (es.mapM fun e => evalWith ev enter e σ)
        (es.mapM fun e => evalWith ev enter' e τ) :=
      .mapM fun e he => ih e he fun v hv => h v ((Expr.mem_free_apply p es).2 ⟨e, he, hv⟩)
    exact bind_eq_ok.2 ⟨body', hbody', hargs.bind hkept x hx⟩
  | quant q bs e ih =>
    rw [evalWith_quant, evalWith_quant]
    refine Kept.bind (ev.quantify_kept q fun xs hxs => ?_) fun b => .refl _
    refine Kept.bind (ih fun v hv => Env.get?_bind_kept hxs fun hn => ?_) fun v => .refl _
    exact h v ((Expr.mem_free_quant q bs e).2 ⟨hv, hn⟩)

/-! ## Applications -/

/-- An application that is answered has as many arguments as the predicate has parameters, and is
answered by the body. -/
theorem enterAt_succ_eq_ok {name : String} {depth found : Nat}
    {body : List Value → Except EvalError Value} :
    enterAt ev (depth + 1) name found = .ok body ↔ ∃ p, ev.predicates.find? name = some p ∧
      p.parameters.length = found ∧
      body = fun xs => evalWith ev (enterAt ev depth) p.body (.ofParameters p.parameters xs) := by
  unfold enterAt
  cases ev.predicates.find? name with
  | none => simp
  | some p =>
    dsimp only
    split
    · next hlen => simp [hlen, eq_comm]
    · next hlen => simp [hlen]

/-- What is answered at some depth is answered one level further up. -/
theorem enterAt_kept (depth : Nat) : (enterAt ev depth).Kept (enterAt ev (depth + 1)) := by
  induction depth with
  | zero => exact fun _ _ _ h => nomatch h
  | succ depth ih =>
    intro name found body hbody
    obtain ⟨p, hp, hlen, rfl⟩ := (ev.enterAt_succ_eq_ok).1 hbody
    refine ⟨_, (ev.enterAt_succ_eq_ok).2 ⟨p, hp, hlen, rfl⟩, fun xs => ?_⟩
    exact ev.evalWith_kept ih fun v _ => .refl _

/-- Below the values of the arguments a name has what the instance has in its place: the value of
the last argument for it, or else what it has outside. -/
theorem get?_bind_arguments {ps : List Var} {args : List Expr} {xs : List Value}
    {σ : Env} (hlen : args.length = ps.length)
    (hargs : List.Forall₂ (fun e x => evalWith ev enter e σ = .ok x) args xs)
    {v : Var} (hv : ∀ w ∈ ps, w.name = v.name → w = v) :
    (σ.bind ps xs).get? v.name = evalWith ev enter ((Subst.ofPairs (ps.zip args)).image v) σ := by
  obtain ⟨hxs, hvalue⟩ := List.forall₂_iff_zip.1 hargs
  -- an argument is looked up together with its value
  have hfst : Var.lookup ps args v.name = (Var.lookup ps (args.zip xs) v.name).map Prod.fst := by
    rw [← Var.lookup_map, List.map_fst_zip (Nat.le_of_eq hxs)]
  have hsnd : Var.lookup ps xs v.name = (Var.lookup ps (args.zip xs) v.name).map Prod.snd := by
    rw [← Var.lookup_map, List.map_snd_zip (Nat.le_of_eq hxs.symm)]
  rw [Env.get?_bind, NameMap.bind, Subst.image, Subst.find?_ofPairs hlen hv,
    Var.lookup_map, hfst, hsnd]
  cases hfound : Var.lookup ps (args.zip xs) v.name with
  | none => rfl
  | some z => exact (hvalue (Var.mem_of_lookup hfound)).symm

/-- **Applying a predicate agrees with instantiating it**: if the parameters and the body of a
predicate use each name at one sort, and an application has a value, then there is an instance for
these arguments, and it has the same value under the same assignment. -/
theorem eval_instantiate {name : String} {p : Predicate} (hp : ev.predicates.find? name = some p)
    (hone : OneType (p.parameters ++ p.body.vars)) {args : List Expr} {a : Assignment}
    {x : Value} (h : ev.eval (.apply name args) a = .ok x) :
    ∃ e, p.instantiate args = some e ∧ ev.eval e a = .ok x := by
  rw [eval, evalIn, evalWith_apply] at h
  obtain ⟨body, hbody, h⟩ := bind_eq_ok.1 h
  obtain ⟨xs, hxs, h⟩ := bind_eq_ok.1 h
  obtain ⟨p', hp', hlen, rfl⟩ := (ev.enterAt_succ_eq_ok).1 hbody
  obtain rfl := Option.some.inj (hp'.symm.trans hp)
  refine ⟨_, if_pos hlen.symm, ?_⟩
  have hscoped : p'.body.Scoped := (hone.mono fun _ => List.mem_append_right _).scoped
  -- the body of the instance is evaluated with the values of the arguments on top of the assignment
  have hsubst : ev.eval (p'.body.subst (.ofPairs (p'.parameters.zip args))) a =
      evalWith ev (enterAt ev maxDepth) p'.body (a.env.bind p'.parameters xs) :=
    ev.evalWith_subst _ hscoped fun v hv =>
      ev.get?_bind_arguments hlen.symm (forall₂_of_mapM_ok hxs) fun w hw hname =>
      hone w (List.mem_append_left _ hw) v
        (List.mem_append_right _ (Expr.mem_vars_of_mem_free hv)) hname
  rw [hsubst]
  -- the application has nothing but these values in scope, and is one level deeper
  exact ev.evalWith_kept (ev.enterAt_kept _) (fun v _ => Env.get?_append_kept _ a.env v.name) x h

end Evaluator

namespace Between

def i : Var := ⟨"i", .int⟩

def lo : Var := ⟨"lo", .int⟩

def hi : Var := ⟨"hi", .int⟩

def m : Var := ⟨"m", .int⟩

/-- There is an integer from `lo` on and below `hi`, or `m` is zero. Of the two values given for
`lo` the second counts, and `m` is not a parameter. -/
def between : Predicate :=
  ⟨"between", [lo, hi, lo], .or (.quant .ex [i] (.and (.binary .le (.var lo) (.var i))
    (.binary .lt (.var i) (.var hi)))) (.binary .eq (.var m) (.int 0))⟩

def evaluator : Evaluator := ⟨[between], -2, 2⟩

/-- The arguments mention the name of the binder. -/
def arguments : List Expr :=
  [.int 7, .binary .add (.var i) (.int 1), .binary .mul (.var i) (.var i)]

end Between

/-- The application passes over `m`, which has no value in the body. -/
theorem Evaluator.eval_instantiate_between :
    OneType (Between.between.parameters ++ Between.between.body.vars) ∧
    Between.evaluator.eval (.apply "between" Between.arguments) [(Between.i, .int 1)] =
      .ok (.bool true) ∧
    ∃ e, Between.between.instantiate Between.arguments = some e ∧
      Between.evaluator.eval e [(Between.i, .int 1)] = .ok (.bool true) := by
  have hone : OneType (Between.between.parameters ++ Between.between.body.vars) := by decide
  have heval : Between.evaluator.eval (.apply "between" Between.arguments) [(Between.i, .int 1)] =
      .ok (.bool true) := rfl
  exact ⟨hone, heval, Evaluator.eval_instantiate Between.evaluator rfl hone heval⟩

end Cutpoint
