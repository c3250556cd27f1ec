import Cutpoint.Proofs.Eval.Basic
import Cutpoint.Proofs.Flow.WellFormed
import Cutpoint.Proofs.Meaning.Reading

/-!
# The values of evaluation are exact

Where evaluation ends with a value, that value is the one the expression has: 64 bits never stand in
for integers of any size, and what evaluation passes over cannot change the answer.

* `UnOp.eval_reading`, `BinOp.complete_reading`: operators, also where the left operand decides;
* `Evaluator.quantify_eq_ok`: what decided a quantifier;
* `Evaluator.Invariant`: a property of expressions in their environments that evaluation keeps down
  to every application it gets to;
* `Evaluator.evalIn_reading`: every reading of the expression has the value of evaluation, if what
  predicates denote is a reading of their definitions for the applications it gets to;
* `Evaluator.evalIn_exact`: evaluation is exact in every model that agrees with the definitions for
  these applications.
-/

set_option autoImplicit false

namespace Cutpoint

def Value.element : Value → Element
  | int n => .int n
  | bool b => .bool b

/-! ## Operators -/

namespace Value

@[simp] theorem element_int (n : Int) : (int n).element = .int n := rfl

@[simp] theorem element_bool (b : Bool) : (bool b).element = .bool b := rfl

theorem int?_eq_ok {v : Value} {n : Int} (h : v.int? = .ok n) : v = int n := by
  cases v with
  | int m => exact congrArg int (Except.ok.inj h)
  | bool b => cases h

theorem bool?_eq_ok {v : Value} {b : Bool} (h : v.bool? = .ok b) : v = bool b := by
  cases v with
  | int n => cases h
  | bool c => exact congrArg bool (Except.ok.inj h)

theorem ty_of_same? {v w : Value} {b : Bool} (h : v.same? w = .ok b) :
    v.element.ty = w.element.ty := by
  cases v with
  | int m =>
    cases w with
    | int n => rfl
    | bool c => cases h
  | bool a =>
    cases w with
    | int n => cases h
    | bool c => rfl

open Classical in
theorem same?_eq_ok {v w : Value} {b : Bool} (h : v.same? w = .ok b) :
    b = decide (v.element = w.element) := by
  cases v with
  | int m =>
    cases w with
    | int n =>
      rw [← Except.ok.inj h]
      simp
    | bool c => cases h
  | bool a =>
    cases w with
    | int n => cases h
    | bool c =>
      rw [← Except.ok.inj h]
      simp

end Value

theorem checked_eq_ok {n : Int} {v : Value} (h : checked n = .ok v) : v = .int n := by
  unfold checked at h
  split at h
  · exact (Except.ok.inj h).symm
  · cases h

theorem checkedMod_eq_ok {m n : Int} {v : Value} (h : checkedMod m n = .ok v) :
    v = .int (m % n) := by
  unfold checkedMod at h
  split at h
  · exact checked_eq_ok h
  · cases h

/-- Quotient and remainder are determined by what a division with remainder is. -/
theorem ediv_emod_of_eq {m n q r : Int} (hn : n ≠ 0) (h : m = n * q + r) (hr : 0 ≤ r)
    (hlt : r < n.natAbs) : q = m / n ∧ r = m % n := by
  have hmod : m % n = r := by
    rw [h, Int.mul_add_emod_self_left]
    rcases Int.natAbs_eq n with hn | hn
    · rw [hn]
      exact Int.emod_eq_of_lt hr hlt
    · rw [hn, Int.emod_neg]
      exact Int.emod_eq_of_lt hr hlt
  refine ⟨Int.eq_of_mul_eq_mul_left hn ?_, hmod.symm⟩
  have hdiv := Int.mul_ediv_add_emod m n
  omega

theorem UnOp.eval_reading {op : UnOp} {v w : Value} (h : op.eval v = .ok w) {x : Element}
    (hx : op.Reading v.element x) : x = w.element := by
  cases op with
  | not =>
    obtain ⟨b, hb, hw⟩ := bind_eq_ok.1 h
    obtain rfl := Value.bool?_eq_ok hb
    rw [← Except.ok.inj hw]
    exact hx b rfl
  | neg =>
    obtain ⟨n, hn, hw⟩ := bind_eq_ok.1 h
    obtain rfl := Value.int?_eq_ok hn
    rw [checked_eq_ok hw]
    exact hx n rfl

namespace BinOp

theorem eval_reading {op : BinOp} {v w x : Value} (h : op.eval v w = .ok x) {y : Element}
    (hy : op.Reading v.element w.element y) : y = x.element := by
  cases op with
  | add | sub | mul =>
    obtain ⟨m, hm, h⟩ := bind_eq_ok.1 h
    obtain ⟨n, hn, h⟩ := bind_eq_ok.1 h
    obtain rfl := Value.int?_eq_ok hm
    obtain rfl := Value.int?_eq_ok hn
    rw [checked_eq_ok h]
    exact hy m n rfl rfl
  | div =>
    obtain ⟨n, hn, hdiv⟩ := bind_eq_ok.1 h
    dsimp only at hdiv
    obtain ⟨hzero, hdiv⟩ := ite_throw_eq_ok.1 hdiv
    obtain ⟨m, hm, hx⟩ := bind_eq_ok.1 hdiv
    obtain rfl := Value.int?_eq_ok hm
    obtain rfl := Value.int?_eq_ok hn
    obtain ⟨q, r, hqr, hr, hlt, rfl⟩ := hy m n rfl rfl hzero
    rw [checked_eq_ok hx, (ediv_emod_of_eq hzero hqr hr hlt).1]
    rfl
  | mod =>
    obtain ⟨n, hn, hdiv⟩ := bind_eq_ok.1 h
    dsimp only at hdiv
    obtain ⟨hzero, hdiv⟩ := ite_throw_eq_ok.1 hdiv
    obtain ⟨m, hm, hx⟩ := bind_eq_ok.1 hdiv
    obtain rfl := Value.int?_eq_ok hm
    obtain rfl := Value.int?_eq_ok hn
    obtain ⟨q, r, hqr, hr, hlt, rfl⟩ := hy m n rfl rfl hzero
    rw [checkedMod_eq_ok hx, (ediv_emod_of_eq hzero hqr hr hlt).2]
    rfl
  | lt | le | gt | ge =>
    obtain ⟨m, hm, h⟩ := bind_eq_ok.1 h
    obtain ⟨n, hn, h⟩ := bind_eq_ok.1 h
    obtain rfl := Value.int?_eq_ok hm
    obtain rfl := Value.int?_eq_ok hn
    rw [← Except.ok.inj h]
    exact hy m n rfl rfl
  | eq | iff | ne =>
    obtain ⟨b, hb, h⟩ := bind_eq_ok.1 h
    rw [← Except.ok.inj h, Value.same?_eq_ok hb, hy (Value.ty_of_same? hb)]
    simp
  | and | or | implies =>
    obtain ⟨a, ha, h⟩ := bind_eq_ok.1 h
    obtain ⟨b, hb, h⟩ := bind_eq_ok.1 h
    obtain rfl := Value.bool?_eq_ok ha
    obtain rfl := Value.bool?_eq_ok hb
    obtain ⟨a', b', ha', hb', rfl⟩ := hy
    rw [← Except.ok.inj h, ha' a rfl, hb' b rfl]
    rfl

/-- Where the left operand decides, the right one may be anything. -/
theorem decided?_reading {op : BinOp} {v x : Value} (h : op.decided? v = .ok (some x))
    {d y : Element} (hy : op.Reading v.element d y) : y = x.element := by
  cases op with
  | and | or | implies =>
    obtain ⟨b, hb, h⟩ := bind_eq_ok.1 h
    obtain rfl := Value.bool?_eq_ok hb
    obtain ⟨a, c, ha, -, rfl⟩ := hy
    obtain rfl := ha b rfl
    cases a with
    | true =>
      cases h
      all_goals rfl
    | false =>
      cases h
      all_goals rfl
  | _ => cases h

theorem complete_reading {op : BinOp} {v x : Value} {right : Except EvalError Value}
    (h : op.complete v right = .ok x) {d y : Element} (hd : ∀ w, right = .ok w → d = w.element)
    (hy : op.Reading v.element d y) : y = x.element := by
  obtain ⟨decided, hdecided, h⟩ := bind_eq_ok.1 h
  cases decided with
  | some w =>
    obtain rfl := Except.ok.inj h
    exact decided?_reading hdecided hy
  | none =>
    obtain ⟨w, hw, h⟩ := bind_eq_ok.1 h
    rw [hd w hw] at hy
    exact eval_reading h hy

end BinOp

variable {M : Model}

theorem UnOp.eval_exact {op : UnOp} {v w : Value} (h : op.eval v = .ok w) :
    op.meaning M v.element = w.element :=
  eval_reading h (M.reading_unary op _)

theorem BinOp.complete_exact {op : BinOp} {v x : Value} {right : Except EvalError Value}
    (h : op.complete v right = .ok x) {d : Element} (hd : ∀ w, right = .ok w → d = w.element) :
    op.meaning M v.element d = x.element :=
  complete_reading h hd (M.reading_binary op _ _)

/-! ## Quantifiers -/

theorem Quantifier.among_iff_of_decider {q : Quantifier} {S P : List Element → Prop}
    {ds : List Element} (hS : S ds) (hP : P ds ↔ q.decider = true) :
    q.Among S P ↔ q.decider = true := by
  cases q with
  | all =>
    have hfalse : ¬ P ds := fun h => Bool.false_ne_true (hP.1 h)
    exact ⟨fun h => absurd (h ds hS) hfalse, fun h => absurd h Bool.false_ne_true⟩
  | ex => exact ⟨fun _ => rfl, fun h => ⟨ds, hS, hP.2 h⟩⟩

theorem Quantifier.among_iff_of_forall {q : Quantifier} {S P : List Element → Prop}
    (h : ∀ ds, S ds → (P ds ↔ (!q.decider) = true)) : q.Among S P ↔ (!q.decider) = true := by
  cases q with
  | all => exact ⟨fun _ => rfl, fun _ ds hds => (h ds hds).2 rfl⟩
  | ex =>
    constructor
    · rintro ⟨ds, hds, hp⟩
      exact (h ds hds).1 hp
    · intro hfalse
      exact absurd hfalse Bool.false_ne_true

namespace Evaluator
variable {ev : Evaluator}

/-- A scan ends at an integer that gives `stop`, or else all integers give the other truth value. -/
theorem scan_eq_ok {stop b : Bool} {f : Int → Except EvalError Bool} {count : Nat} {n : Int}
    (h : scan stop f count n = .ok b) :
    (b = stop ∧ ∃ m, n ≤ m ∧ m < n + count ∧ f m = .ok stop) ∨
    (b = !stop ∧ ∀ m, n ≤ m → m < n + count → f m = .ok !stop) := by
  induction count generalizing n with
  | zero =>
    refine .inr ⟨(Except.ok.inj h).symm, fun m hle hlt => ?_⟩
    omega
  | succ count ih =>
    obtain ⟨c, hc, h⟩ := bind_eq_ok.1 h
    by_cases hstop : c = stop
    · rw [if_pos hstop] at h
      exact .inl ⟨(Except.ok.inj h).symm, n, Int.le_refl n, by omega, hstop ▸ hc⟩
    · rw [if_neg hstop] at h
      have hother : c = !stop := by
        cases c <;> cases stop <;> simp_all
      rcases ih h with ⟨hb, m, hle, hlt, hm⟩ | ⟨hb, hall⟩
      · exact .inl ⟨hb, m, by omega, by omega, hm⟩
      · refine .inr ⟨hb, fun m hle hlt => ?_⟩
        by_cases hn : m = n
        · rw [hn, hc, hother]
        · exact hall m (by omega) (by omega)

/-- The integers that binders range over. -/
def Within (ev : Evaluator) (n : Int) : Prop := ev.lo ≤ n ∧ n ≤ ev.hi

theorem ranges_cons {D : Int → Prop} {b : Var} {bs : List Var} {ds : List Element} :
    Element.Ranges D (b :: bs) ds ↔
      ∃ d ds', ds = d :: ds' ∧ d.ty = b.ty ∧ (∀ n, d = .int n → D n) ∧ Element.Ranges D bs ds' := by
  constructor
  · rintro ⟨hty, hint⟩
    cases ds with
    | nil => cases hty
    | cons d ds =>
      obtain ⟨hd, hds⟩ := List.cons.inj hty
      exact ⟨d, ds, rfl, hd, fun n hn => hint n (hn ▸ List.mem_cons_self), hds,
        fun n hn => hint n (List.mem_cons_of_mem _ hn)⟩
  · rintro ⟨d, ds, rfl, hd, hn, hds, hint⟩
    refine ⟨?_, fun n hmem => ?_⟩
    · show d.ty :: ds.map Element.ty = b.ty :: bs.map Var.ty
      rw [hd, show ds.map Element.ty = bs.map Var.ty from hds]
    · rcases List.mem_cons.1 hmem with heq | hmem
      · exact hn n heq.symm
      · exact hint n hmem

/-- What gives a quantifier its truth value: one instance that decides it, or else all of them. -/
def Decides (ev : Evaluator) (q : Quantifier) (f : Env → Except EvalError Bool) (bs : List Var)
    (env : Env) (b : Bool) : Prop :=
  (b = q.decider ∧ ∃ xs, Element.Ranges ev.Within bs (xs.map Value.element) ∧
    f (env.bind bs xs) = .ok b) ∨
  (b = !q.decider ∧ ∀ ds, Element.Ranges ev.Within bs ds → ∃ xs, ds = xs.map Value.element ∧
    f (env.bind bs xs) = .ok b)

section Decides
variable {q : Quantifier} {f : Env → Except EvalError Bool} {bs : List Var} {env : Env} {b : Var}

theorem decides_cons_of_decider {y : Value} (hty : y.element.ty = b.ty)
    (hn : ∀ n, y.element = .int n → ev.Within n)
    (h : ev.Decides q f bs ((b.name, y) :: env) q.decider) :
    ev.Decides q f (b :: bs) env q.decider := by
  rcases h with ⟨-, xs, hxs, hf⟩ | ⟨hne, -⟩
  · refine .inl ⟨rfl, y :: xs, ?_, ?_⟩
    · rw [List.map_cons]
      exact ranges_cons.2 ⟨_, _, rfl, hty, hn, hxs⟩
    · rw [Env.bind_cons]
      exact hf
  · exact absurd hne (by simp)

theorem decides_cons_of_forall
    (h : ∀ d : Element, d.ty = b.ty → (∀ n, d = .int n → ev.Within n) →
      ∃ y : Value, d = y.element ∧ ev.Decides q f bs ((b.name, y) :: env) (!q.decider)) :
    ev.Decides q f (b :: bs) env (!q.decider) := by
  refine .inr ⟨rfl, fun es hes => ?_⟩
  obtain ⟨d, ds, rfl, hty, hn, hds⟩ := ranges_cons.1 hes
  obtain ⟨y, rfl, hy⟩ := h d hty hn
  rcases hy with ⟨hne, -⟩ | ⟨-, hall⟩
  · exact absurd hne (by simp)
  · obtain ⟨xs, rfl, hf⟩ := hall ds hds
    exact ⟨y :: xs, rfl, by rw [Env.bind_cons]; exact hf⟩

theorem quantify_eq_ok {c : Bool} (h : ev.quantify q f bs env = .ok c) :
    ev.Decides q f bs env c := by
  induction bs generalizing env c with
  | nil =>
    have hc : f env = .ok c := h
    by_cases hd : c = q.decider
    · exact .inl ⟨hd, [], ⟨rfl, fun n hn => absurd hn List.not_mem_nil⟩, hc⟩
    · exact .inr ⟨Bool.eq_not_of_ne hd, fun ds hds => ⟨[], List.map_eq_nil_iff.1 hds.1, hc⟩⟩
  | cons b bs ih =>
    unfold quantify at h
    cases hty : b.ty with
    | int =>
      rw [hty] at h
      rcases scan_eq_ok h with ⟨rfl, m, hle, hlt, hm⟩ | ⟨rfl, hall⟩
      · refine decides_cons_of_decider (y := .int m) hty.symm (fun n hn => ?_) (ih hm)
        obtain rfl := Element.int_inj.1 hn
        exact ⟨hle, by omega⟩
      · refine decides_cons_of_forall fun d hd hn => ?_
        obtain ⟨m, rfl⟩ := Element.eq_int (hd.trans hty)
        obtain ⟨hle, hge⟩ := hn m rfl
        exact ⟨.int m, rfl, ih (hall m hle (by omega))⟩
    | bool =>
      rw [hty] at h
      obtain ⟨c₀, h₀, h⟩ := bind_eq_ok.1 h
      -- a truth value is no integer
      have hnone : ∀ a n, Element.bool a = .int n → ev.Within n := by
        intro a n hn
        cases congrArg Element.ty hn
      by_cases hstop : c₀ = q.decider
      · rw [if_pos hstop] at h
        obtain rfl := Except.ok.inj h
        exact decides_cons_of_decider (y := .bool false) hty.symm (hnone false) (ih (hstop ▸ h₀))
      · rw [if_neg hstop] at h
        by_cases hd : c = q.decider
        · exact hd ▸ decides_cons_of_decider (y := .bool true) hty.symm (hnone true) (hd ▸ ih h)
        · obtain rfl := Bool.eq_not_of_ne hd
          obtain rfl := Bool.eq_not_of_ne hstop
          refine decides_cons_of_forall fun d hd hn => ?_
          obtain ⟨a, rfl⟩ := Element.eq_bool (hd.trans hty)
          cases a with
          | false => exact ⟨.bool false, rfl, ih h₀⟩
          | true => exact ⟨.bool true, rfl, ih h⟩
    | array t =>
      rw [hty] at h
      cases h

end Decides

end Evaluator

/-! ## Environments -/

namespace Env

/-- The elements that names have in the environment. -/
def bindings (env : Env) : Bindings := fun x => (env.get? x).toOption.map Value.element

theorem bindings_of_get? {env : Env} {x : String} {v : Value} (h : env.get? x = .ok v) :
    env.bindings x = some v.element := by
  rw [bindings, h]
  rfl

theorem bindings_bind (env : Env) (bs : List Var) (xs : List Value) :
    (env.bind bs xs).bindings = env.bindings.bind bs (xs.map Value.element) := by
  funext x
  have hmap := NameMap.map_bind (fun r : Except EvalError Value => r.toOption.map Value.element)
    env.get? bs (xs.map .ok) x
  rw [bindings, get?_bind, hmap, Bindings.bind, List.map_map, List.map_map]
  rfl

theorem bindings_ofParameters (bs : List Var) (xs : List Value) :
    (Env.ofParameters bs xs).bindings = Bindings.none.bind bs (xs.map Value.element) := by
  rw [show Env.ofParameters bs xs = Env.bind [] bs xs from (List.append_nil _).symm, bindings_bind]
  rfl

/-- The names of the environment have their values in the valuation. -/
def Agrees (env : Env) (σ : Valuation) : Prop := ∀ x v, env.get? x = .ok v → σ x = v.element

theorem Agrees.bindings {env : Env} {σ : Valuation} (h : env.Agrees σ) : env.bindings.Agrees σ := by
  intro x d hd
  rw [Env.bindings] at hd
  cases hx : env.get? x with
  | error e =>
    rw [hx] at hd
    cases hd
  | ok v =>
    rw [hx] at hd
    exact (h x v hx).trans (Option.some.inj hd)

end Env

/-! ## Expressions -/

theorem forall₂_of_mapM_ok {ε α β : Type} {f : α → Except ε β} {as : List α} {bs : List β}
    (h : as.mapM f = .ok bs) : List.Forall₂ (fun a b => f a = .ok b) as bs := by
  induction as generalizing bs with
  | nil =>
    obtain rfl := Except.ok.inj h
    exact .nil
  | cons a as ih =>
    rw [List.mapM_cons] at h
    obtain ⟨b, hb, h⟩ := bind_eq_ok.1 h
    obtain ⟨cs, hcs, h⟩ := bind_eq_ok.1 h
    obtain rfl := Except.ok.inj h
    exact .cons hb (ih hcs)

/-- The readings of arguments are their values if those of each argument are. -/
theorem eq_map_of_forall₂ {α β γ : Type} {R : α → β → Prop} {S : α → γ → Prop} {as : List α}
    {bs : List β} {cs : List γ} {g : β → γ} (hb : List.Forall₂ R as bs) (hc : List.Forall₂ S as cs)
    (h : ∀ a ∈ as, ∀ b c, R a b → S a c → c = g b) : cs = bs.map g := by
  induction hb generalizing cs with
  | nil =>
    cases hc
    rfl
  | cons hab _ ih =>
    cases hc with
    | cons hac hcs =>
      rw [h _ List.mem_cons_self _ _ hab hac, ih hcs fun a ha => h a (List.mem_cons_of_mem _ ha),
        List.map_cons]

namespace Evaluator
variable {ev : Evaluator} {enter : Enter} {A B : String → List Value → Prop}
  {C E : Expr → Env → Prop} {D : Int → Prop}

/-- A property of expressions in their environments that holds for every part that evaluation gets
to, where the applications are those of `A`. -/
structure Invariant (ev : Evaluator) (enter : Enter) (A : String → List Value → Prop)
    (C : Expr → Env → Prop) : Prop where
  unary : ∀ {op e env}, C (.unary op e) env → C e env
  left : ∀ {op l r env}, C (.binary op l r) env → C l env
  right : ∀ {op l r env}, C (.binary op l r) env → C r env
  args : ∀ {p es env}, C (.apply p es) env → ∀ e ∈ es, C e env
  body : ∀ {q bs e env}, C (.quant q bs e) env → ∀ xs, Element.Typed bs (xs.map Value.element) →
    C e (env.bind bs xs)
  applied : ∀ {p es env}, C (.apply p es) env →
    ∀ xs, List.Forall₂ (fun e x => evalWith ev enter e env = .ok x) es xs → A p xs

theorem Invariant.and (hC : ev.Invariant enter A C) (hE : ev.Invariant enter B E) :
    ev.Invariant enter (fun p xs => A p xs ∧ B p xs) (fun e env => C e env ∧ E e env) where
  unary h := ⟨hC.unary h.1, hE.unary h.2⟩
  left h := ⟨hC.left h.1, hE.left h.2⟩
  right h := ⟨hC.right h.1, hE.right h.2⟩
  args h e he := ⟨hC.args h.1 e he, hE.args h.2 e he⟩
  body h xs hxs := ⟨hC.body h.1 xs hxs, hE.body h.2 xs hxs⟩
  applied h xs hxs := ⟨hC.applied h.1 xs hxs, hE.applied h.2 xs hxs⟩

/-- The values that applications give are those that predicates denote, for the arguments of `A`. -/
def EnterExact (I : Meanings) (A : String → List Value → Prop) (enter : Enter) : Prop :=
  ∀ p xs, A p xs → ∀ body, enter p xs.length = .ok body → ∀ v, body xs = .ok v →
    I p (xs.map Value.element) = v.element

/-- Evaluation is exact if applications are. The integers of binders are those of the domain where
there is a quantifier. -/
theorem evalWith_reading {I : Meanings} (hC : ev.Invariant enter A C)
    (hD : ∀ q bs e env, C (.quant q bs e) env → D = ev.Within) (henter : EnterExact I A enter)
    {e : Expr} {env : Env} {v : Value} (hc : C e env) (h : evalWith ev enter e env = .ok v)
    {d : Element} (hd : I.Reads D env.bindings e d) : d = v.element := by
  induction e generalizing env v d with
  | bool b | int n =>
    obtain rfl := Except.ok.inj h
    exact hd
  | var w => exact hd _ (Env.bindings_of_get? h)
  | unary op e ih =>
    rw [evalWith_unary] at h
    obtain ⟨x, hx, h⟩ := bind_eq_ok.1 h
    obtain ⟨c, hread, hd⟩ := hd
    obtain rfl := ih (hC.unary hc) hx hread
    exact UnOp.eval_reading h hd
  | binary op l r hl hr =>
    rw [evalWith_binary] at h
    obtain ⟨x, hx, h⟩ := bind_eq_ok.1 h
    obtain ⟨b, c, hb, hread, hd⟩ := hd
    obtain rfl := hl (hC.left hc) hx hb
    exact BinOp.complete_reading h (fun w hw => hr (hC.right hc) hw hread) hd
  | select a i | length a | update a i w l => cases h
  | apply p es ih =>
    rw [evalWith_apply] at h
    obtain ⟨body, hbody, h⟩ := bind_eq_ok.1 h
    obtain ⟨xs, hxs, h⟩ := bind_eq_ok.1 h
    obtain ⟨cs, hcs, rfl⟩ := hd
    have hargs := forall₂_of_mapM_ok hxs
    obtain rfl := eq_map_of_forall₂ hargs ((I.readsAll_iff D).1 hcs) fun e he x c hx hread =>
      ih e he (hC.args hc e he) hx hread
    exact henter p xs (hC.applied hc xs hargs) body (hargs.length_eq ▸ hbody) v h
  | quant q bs e ih =>
    rw [evalWith_quant] at h
    obtain ⟨b, hb, h⟩ := bind_eq_ok.1 h
    obtain rfl := Except.ok.inj h
    obtain rfl := hD q bs e env hc
    obtain ⟨truth, t, hinst, ht, rfl⟩ := hd
    -- an instance with a truth value has the same one in every reading
    have htruth : ∀ xs, Element.Ranges ev.Within bs (xs.map Value.element) →
        (evalWith ev enter e (env.bind bs xs) >>= Value.bool?) = .ok b →
        (truth (xs.map Value.element) = true ↔ b = true) := by
      intro xs hrange hxs
      obtain ⟨x, hx, hbool⟩ := bind_eq_ok.1 hxs
      obtain ⟨c, hread, hcounts⟩ := hinst _ hrange
      rw [← Env.bindings_bind] at hread
      obtain rfl := ih (hC.body hc xs hrange.1) hx hread
      rw [hcounts b (by rw [Value.bool?_eq_ok hbool, Value.element_bool])]
    rw [Value.element_bool, Element.bool_inj, Bool.eq_iff_iff, ht]
    rcases quantify_eq_ok hb with ⟨rfl, xs, hxs, hf⟩ | ⟨rfl, hall⟩
    · exact Quantifier.among_iff_of_decider hxs (htruth xs hxs hf)
    · refine Quantifier.among_iff_of_forall fun ds hds => ?_
      obtain ⟨xs, rfl, hf⟩ := hall ds hds
      exact htruth xs hds hf

/-- What predicates denote for the arguments of `A` is a reading of their definitions, and the
bodies then have the property `C`. -/
structure Defines (ev : Evaluator) (I : Meanings) (D : Int → Prop) (A : String → List Value → Prop)
    (C : Expr → Env → Prop) : Prop where
  reads : ∀ {name p}, ev.predicates.find? name = some p →
    ∀ xs, xs.length = p.parameters.length → A name xs →
    I.Reads D (Bindings.none.bind p.parameters (xs.map Value.element)) p.body
    (I name (xs.map Value.element))
  body : ∀ {name p}, ev.predicates.find? name = some p →
    ∀ xs, xs.length = p.parameters.length → A name xs →
    C p.body (.ofParameters p.parameters xs)

theorem enterAt_reading {I : Meanings} (hC : ∀ depth, ev.Invariant (enterAt ev depth) A C)
    (hD : ∀ q bs e env, C (.quant q bs e) env → D = ev.Within) (hI : ev.Defines I D A C)
    (depth : Nat) : EnterExact I A (enterAt ev depth) := by
  induction depth with
  | zero =>
    intro p xs _ body hbody
    cases hbody
  | succ depth ih =>
    intro p xs hA body hbody v hv
    unfold enterAt at hbody
    split at hbody
    · cases hbody
    · next d hfind =>
      split at hbody
      · next hlen =>
        obtain rfl := Except.ok.inj hbody
        have hread := hI.reads hfind xs hlen.symm hA
        rw [← Env.bindings_ofParameters] at hread
        exact evalWith_reading (hC depth) hD ih (hI.body hfind xs hlen.symm hA) hv hread
      · cases hbody

/-- Where evaluation ends with a value, every reading of the expression has that value. -/
theorem evalIn_reading {I : Meanings} (hC : ∀ depth, ev.Invariant (enterAt ev depth) A C)
    (hD : ∀ q bs e env, C (.quant q bs e) env → D = ev.Within) (hI : ev.Defines I D A C) {e : Expr}
    {env : Env} {v : Value} (hc : C e env) (h : ev.evalIn e env = .ok v) {d : Element}
    (hd : I.Reads D env.bindings e d) : d = v.element :=
  evalWith_reading (hC maxDepth) hD (enterAt_reading hC hD hI maxDepth) hc h hd

/-- The model agrees with the definitions for the arguments of `A`, and their bodies then have the
property `C`. -/
structure Agrees (ev : Evaluator) (M : Model) (D : Int → Prop) (A : String → List Value → Prop)
    (C : Expr → Env → Prop) : Prop where
  holds : ∀ {name p}, ev.predicates.find? name = some p →
    ∀ xs, xs.length = p.parameters.length → A name xs →
    ∃ σ : Valuation, M.pred name (xs.map Value.element) =
    M.valueIn D (σ.bind p.parameters (xs.map Value.element)) p.body
  body : ∀ {name p}, ev.predicates.find? name = some p →
    ∀ xs, xs.length = p.parameters.length → A name xs →
    C p.body (.ofParameters p.parameters xs)

theorem Agrees.defines (hM : ev.Agrees M D A C) : ev.Defines M.pred D A C where
  reads := by
    intro name p hp xs hlen hA
    obtain ⟨σ, hσ⟩ := hM.holds hp xs hlen hA
    rw [hσ]
    exact M.reads_valueIn D ((Bindings.agrees_none σ).bind _ _) _
  body := hM.body

/-- Where evaluation ends with a value, the expression has that value in the model. -/
theorem evalIn_exact (hC : ∀ depth, ev.Invariant (enterAt ev depth) A C)
    (hD : ∀ q bs e env, C (.quant q bs e) env → D = ev.Within) (hM : ev.Agrees M D A C) {e : Expr}
    {env : Env} {σ : Valuation} {v : Value} (hc : C e env) (hσ : env.Agrees σ)
    (h : ev.evalIn e env = .ok v) : M.valueIn D σ e = v.element :=
  evalIn_reading hC hD hM.defines hc h (M.reads_valueIn D hσ.bindings e)

end Evaluator

end Cutpoint
