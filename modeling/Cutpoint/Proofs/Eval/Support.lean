import Cutpoint.Proofs.Eval.Subst
import Cutpoint.Proofs.Solver.Product

/-!
# Evaluation depends on the free names

Nothing but the values of the free names of an expression decides what it evaluates to, be that a
value or an error. Assigning values to its free variables is therefore enough, and the bounded
search passes over no assignment for assigning no others.

* `Assignment.onto a vs`: the variables `vs` with the values that their names have under `a`;
* `Bounded.exists_assignmentAt_onto`: the search tries every such assignment whose values it has;
* `Evaluator.eval_support`: evaluation depends on the free names, and assignments to the free
  variables are enough.
-/

set_option autoImplicit false

namespace Cutpoint

theorem Env.exists_get?_of_mem {env : Env} {x : String} {v : Value} (h : (x, v) ∈ env) :
    ∃ w, env.get? x = .ok w := by
  induction env with
  | nil => cases h
  | cons p env ih =>
    rcases p with ⟨y, w⟩
    rw [get?_cons]
    by_cases hy : y = x
    · exact ⟨w, if_pos hy⟩
    · rw [if_neg hy]
      refine ih ((List.mem_cons.1 h).resolve_left fun heq => hy ?_)
      exact (congrArg Prod.fst heq).symm

/-! ## Assignments to some variables -/

namespace Assignment

/-- The given variables with the values that their names have, where they have any. -/
def onto (a : Assignment) (vs : List Var) : Assignment :=
  vs.filterMap fun v => (a.env.get? v.name).toOption.map (v, ·)

theorem mem_onto {a : Assignment} {vs : List Var} {v : Var}
    {x : Value} : (v, x) ∈ a.onto vs ↔ v ∈ vs ∧ a.env.get? v.name = .ok x := by
  have hvalue : (a.env.get? v.name).toOption = some x ↔ a.env.get? v.name = .ok x := by
    cases a.env.get? v.name <;> simp [Except.toOption]
  simp only [onto, List.mem_filterMap, Option.map_eq_some_iff, Prod.mk.injEq]
  constructor
  · rintro ⟨w, hw, y, hy, rfl, rfl⟩
    exact ⟨hw, hvalue.1 hy⟩
  · rintro ⟨hv, hx⟩
    exact ⟨v, hv, x, hvalue.2 hx, rfl, rfl⟩

/-- The names of the variables have the values that they had. -/
theorem get?_onto (a : Assignment) {vs : List Var} {x : String} (hx : x ∈ Var.names vs) :
    (a.onto vs).env.get? x = a.env.get? x := by
  have hmem : ∀ y, (x, y) ∈ (a.onto vs).env ↔ a.env.get? x = .ok y := by
    intro y
    obtain ⟨v, hv, rfl⟩ := mem_names.1 hx
    simp only [env, List.mem_reverse, List.mem_map, Prod.mk.injEq]
    constructor
    · rintro ⟨⟨w, z⟩, hw, hname, rfl⟩
      rw [← hname]
      exact (mem_onto.1 hw).2
    · intro hy
      exact ⟨(v, y), mem_onto.2 ⟨hv, hy⟩, rfl, rfl⟩
  rcases Env.get?_cases (a.onto vs).env x with ⟨y, hy⟩ | hnone
  · rw [hy, (hmem y).1 (Env.mem_of_get? hy)]
  · rcases Env.get?_cases a.env x with ⟨y, hy⟩ | hnone'
    · obtain ⟨z, hz⟩ := Env.exists_get?_of_mem ((hmem y).2 hy)
      cases hnone.symm.trans hz
    · rw [hnone, hnone']

theorem onto_cons {a : Assignment} {v : Var} {x : Value} (h : a.env.get? v.name = .ok x)
    (vs : List Var) : a.onto (v :: vs) = (v, x) :: a.onto vs := by
  refine List.filterMap_cons_some ?_
  rw [h]
  rfl

theorem map_fst_onto {a : Assignment} {vs : List Var}
    (h : ∀ v ∈ vs, ∃ x, a.env.get? v.name = .ok x) : (a.onto vs).map Prod.fst = vs := by
  induction vs with
  | nil => rfl
  | cons v vs ih =>
    obtain ⟨x, hx⟩ := h v List.mem_cons_self
    rw [onto_cons hx, List.map_cons, ih fun w hw => h w (List.mem_cons_of_mem _ hw)]

end Assignment

/-! ## The search -/

namespace Bounded
variable (b : Bounded)

/-- The search tries the values that an assignment has for the names of the variables, if it has all
of them. -/
theorem exists_assignmentAt_onto {a : Assignment} {vs : List Var}
    (h : ∀ v ∈ vs, ∃ x ∈ b.values v, a.env.get? v.name = .ok x) :
    ∃ k, k < b.space vs ∧ b.assignmentAt vs k = a.onto vs := by
  have hmem : a.onto vs ∈ b.product vs := by
    refine b.mem_product.2 ⟨Assignment.map_fst_onto fun v hv => ?_, fun ⟨v, y⟩ hp => ?_⟩
    · obtain ⟨x, -, hx⟩ := h v hv
      exact ⟨x, hx⟩
    · obtain ⟨hv, hy⟩ := Assignment.mem_onto.1 hp
      obtain ⟨x, hxv, hx⟩ := h v hv
      exact Except.ok.inj (hx.symm.trans hy) ▸ hxv
  rw [product_eq_map] at hmem
  obtain ⟨k, hk, hat⟩ := List.mem_map.1 hmem
  exact ⟨k, List.mem_range.1 hk, hat⟩

end Bounded

namespace Evaluator

theorem eval_congr (ev : Evaluator) {e : Expr} {a c : Assignment}
    (h : ∀ x ∈ e.freeNames, a.env.get? x = c.env.get? x) : ev.eval e a = ev.eval e c :=
  ev.evalWith_congr _ fun v hv => h v.name (Expr.mem_freeNames.2 ⟨v, hv, rfl⟩)

theorem eval_onto (ev : Evaluator) (e : Expr) (a : Assignment) :
    ev.eval e (a.onto e.free) = ev.eval e a :=
  ev.evalWith_congr _ fun _ hv => a.get?_onto (name_mem_names hv)

/-- **Evaluation depends on the free names**: two assignments under which each free name has the
same value, or none, give the same value or the same error. So it is enough to assign the free
variables: they can have the values that their names have under any assignment, and where the
bounded search has all of these among its own, it tries them. If it comes to its end, then the
formula is true under each of these assignments, whatever else they assign. -/
theorem eval_support (ev : Evaluator) (e : Expr) :
    (∀ a c : Assignment, (∀ x ∈ e.freeNames, a.env.get? x = c.env.get? x) →
      ev.eval e a = ev.eval e c) ∧
    (∀ a : Assignment, (∀ p ∈ a.onto e.free, p.1 ∈ e.free) ∧
      ev.eval e (a.onto e.free) = ev.eval e a) ∧
    ∀ (b : Bounded) (a : Assignment), (∀ v ∈ e.free, ∃ x ∈ b.values v, a.env.get? v.name = .ok x) →
      (∃ k, k < b.space e.free ∧ b.assignmentAt e.free k = a.onto e.free) ∧
      (b.search e = .exhausted → b.evaluator.holds e a = .ok true) := by
  refine ⟨fun a c => ev.eval_congr,
    fun a => ⟨fun p hp => (Assignment.mem_onto.1 hp).1, ev.eval_onto e a⟩, fun b a h => ?_⟩
  obtain ⟨k, hk, hat⟩ := b.exists_assignmentAt_onto h
  refine ⟨⟨k, hk, hat⟩, fun hsearch => ?_⟩
  obtain ⟨-, -, hscan⟩ := Bounded.search_eq hsearch nofun
  have htrue := Bounded.scan_eq_exhausted hscan k (Nat.zero_le k) (by omega)
  rw [hat, holds, eval_onto] at htrue
  exact htrue

end Evaluator

namespace Shadowed

def i : Var := ⟨"i", .int⟩

def m : Var := ⟨"m", .int⟩

def n : Var := ⟨"n", .int⟩

/-- The body mentions a name that is no parameter. -/
def above : Predicate := ⟨"above", [i], .binary .gt (.var i) (.var m)⟩

def evaluator : Evaluator := ⟨[above], -3, 3⟩

/-- `(exists i: int :: i == n) && above(n)` -/
def formula : Expr :=
  .and (.quant .ex [i] (.binary .eq (.var i) (.var n))) (.apply "above" [.var n])

def wide : Assignment := [(i, .int 5), (m, .bool true), (n, .int 2)]

def narrow : Assignment := [(n, .int 2)]

/-- `n <= 3` -/
def guard : Expr := .binary .le (.var n) (.int 3)

def backend : Bounded := .ofBound 3 100

end Shadowed

/-- The two assignments differ for the name of the binder and for the name that has no value in the
body of the predicate. -/
theorem Evaluator.eval_support_shadowed :
    ((∀ x ∈ Shadowed.formula.freeNames, Shadowed.wide.env.get? x = Shadowed.narrow.env.get? x) ∧
      Shadowed.evaluator.eval Shadowed.formula Shadowed.wide = .error (.unbound "m") ∧
      Shadowed.evaluator.eval Shadowed.formula Shadowed.narrow = .error (.unbound "m")) ∧
    (∀ v ∈ Shadowed.guard.free, ∃ x ∈ Shadowed.backend.values v,
      Shadowed.wide.env.get? v.name = .ok x) ∧
    Shadowed.backend.search Shadowed.guard = .exhausted ∧
    Shadowed.backend.evaluator.holds Shadowed.guard Shadowed.wide = .ok true := by
  have hagree : ∀ x ∈ Shadowed.formula.freeNames, Shadowed.wide.env.get? x =
      Shadowed.narrow.env.get? x := by
    intro x hx
    obtain rfl : x = "n" := List.mem_singleton.1 hx
    rfl
  have hnarrow : Shadowed.evaluator.eval Shadowed.formula Shadowed.narrow = .error (.unbound "m") :=
    rfl
  have hvalues : ∀ v ∈ Shadowed.guard.free, ∃ x ∈ Shadowed.backend.values v,
      Shadowed.wide.env.get? v.name = .ok x := by
    intro v hv
    obtain rfl : v = Shadowed.n := List.mem_singleton.1 hv
    exact ⟨.int 2, by decide, rfl⟩
  have hsearch : Shadowed.backend.search Shadowed.guard = .exhausted := rfl
  refine ⟨⟨hagree, ?_, hnarrow⟩, hvalues, hsearch, ?_⟩
  · exact ((Evaluator.eval_support Shadowed.evaluator Shadowed.formula).1 _ _ hagree).trans hnarrow
  · exact ((Evaluator.eval_support Shadowed.evaluator Shadowed.guard).2.2 Shadowed.backend
      Shadowed.wide hvalues).2 hsearch

end Cutpoint
