import Cutpoint.Proofs.Eval.Basic

/-!
# Evaluation of a substitution

Replacing variables and then evaluating gives what evaluating gives after the names of the variables
have got the values of their replacements.

* `Assignment.rebind`: gives a name a value, in place of those that variables of this name have;
* `Subst.rebind`: the assignment in which the replaced variables have the values of their
  replacements;
* `Evaluator.eval_subst`: the law for assignments. It covers the errors: which one there is, and
  that there is one.
-/

set_option autoImplicit false

namespace Cutpoint

/-! ## Assignments -/

namespace Assignment

theorem env_cons (w : Var) (y : Value) (a : Assignment) :
    env ((w, y) :: a) = env a ++ [(w.name, y)] := by
  simp [env]

/-- Gives a name a value, in place of the values that variables of this name have. -/
def rebind (v : Var) (x : Value) (a : Assignment) : Assignment :=
  insert v x (a.filter fun p => p.1.name ≠ v.name)

theorem get?_env_filter (a : Assignment) (k : String → Bool) (y : String) :
    (env (a.filter fun p => k p.1.name)).get? y = if k y then a.env.get? y
      else .error (.unbound y) := by
  rw [← Env.get?_filter, env, env, List.filter_reverse, List.filter_map]
  rfl

theorem get?_env_insert {v : Var} (x : Value) {a : Assignment} (h : ∀ p ∈ a, p.1.name ≠ v.name)
    (y : String) : (insert v x a).env.get? y = if v.name = y then .ok x else a.env.get? y := by
  have hsingle : ∀ b : Assignment, (∀ p ∈ b, p.1.name ≠ v.name) →
      (env ((v, x) :: b)).get? y = if v.name = y then .ok x else b.env.get? y := by
    intro b hb
    rw [env_cons, Env.get?_append, Env.get?_cons]
    rcases Env.get?_cases b.env y with ⟨u, hu⟩ | hu
    · have hne : v.name ≠ y := by
        rintro rfl
        have hnone := get?_env_filter b (fun z => decide (z ≠ v.name)) v.name
        rw [List.filter_eq_self.2 (by simpa using hb), hu] at hnone
        simp at hnone
      simp only [hu, if_neg hne]
    · rw [hu]
      rfl
  induction a with
  | nil => exact hsingle [] h
  | cons p a ih =>
    have hp : p.1.name ≠ v.name := h p List.mem_cons_self
    have ha : ∀ q ∈ a, q.1.name ≠ v.name := fun q hq => h q (List.mem_cons_of_mem _ hq)
    obtain ⟨w, u⟩ := p
    rw [insert, if_neg fun he : v = w => hp (he ▸ rfl)]
    split
    · exact hsingle _ h
    · rw [env_cons, env_cons, Env.get?_append, Env.get?_append, ih ha]
      by_cases hy : v.name = y
      · rw [if_pos hy, if_pos hy]
      · rw [if_neg hy, if_neg hy]

theorem get?_env_rebind (v : Var) (x : Value) (a : Assignment) (y : String) :
    (a.rebind v x).env.get? y = if v.name = y then .ok x else a.env.get? y := by
  have hfilter := get?_env_filter a (fun z => decide (z ≠ v.name)) y
  rw [rebind, get?_env_insert x (by simp), hfilter]
  by_cases hy : v.name = y
  · rw [if_pos hy, if_pos hy]
  · rw [if_neg hy, if_neg hy, if_pos (by simpa using Ne.symm hy)]

end Assignment

namespace Subst

/-- The variables of a substitution, those of the replacements included. -/
def vars (s : Subst) : List Var := s.flatMap fun p => p.1 :: p.2.vars

/-- The assignment in which the names of the replaced variables have the values of the replacements.
A replacement without a value leaves its name as it is. -/
def rebind (ev : Evaluator) (s : Subst) (a : Assignment) : Assignment :=
  s.foldr (fun p b => match ev.eval p.2 a with
    | .ok x => b.rebind p.1 x
    | .error _ => b) a

theorem get?_rebind (ev : Evaluator) {s : Subst} (a : Assignment) {v : Var}
    (hkeys : ∀ p ∈ s, p.1.name = v.name → p.1 = v)
    (h : ∀ r, s.find? v = some r → ∃ x, ev.eval r a = .ok x) :
    (s.rebind ev a).env.get? v.name = ev.eval (s.image v) a := by
  induction s with
  | nil => rfl
  | cons p s ih =>
    have htail : ∀ q ∈ s, q.1.name = v.name → q.1 = v :=
      fun q hq => hkeys q (List.mem_cons_of_mem _ hq)
    simp only [image, find?_cons] at h ih ⊢
    by_cases hp : p.1 = v
    · obtain ⟨x, hx⟩ := h p.2 (if_pos hp)
      rw [if_pos hp, Option.getD_some, hx, rebind, List.foldr_cons, hx, Assignment.get?_env_rebind,
        if_pos (by rw [hp])]
    · have hname : p.1.name ≠ v.name := fun hn => hp (hkeys p List.mem_cons_self hn)
      rw [if_neg hp] at h ⊢
      rw [← ih htail h, rebind, List.foldr_cons]
      cases ev.eval p.2 a with
      | ok x =>
        rw [Assignment.get?_env_rebind, if_neg hname]
        rfl
      | error err => rfl

end Subst

/-- **Substitution is a change of the assignment**: if an expression and a substitution use each
name at one sort, and the replacements of the free variables have values, then evaluating the
substituted expression gives the value or the error that the expression has where the names of the
replaced variables have the values of their replacements. -/
theorem Evaluator.eval_subst (ev : Evaluator) {e : Expr} {s : Subst}
    (hone : OneType (e.vars ++ s.vars)) (a : Assignment)
    (h : ∀ v ∈ e.free, ∀ r, s.find? v = some r → ∃ x, ev.eval r a = .ok x) :
    ev.eval (e.subst s) a = ev.eval e (s.rebind ev a) := by
  have hscoped : e.Scoped := (hone.mono fun _ => List.mem_append_left _).scoped
  refine ev.evalWith_subst _ hscoped fun v hv => ?_
  refine s.get?_rebind ev a (fun p hp hname => ?_) (h v hv)
  have hkey : p.1 ∈ s.vars := List.mem_flatMap.2 ⟨p, hp, List.mem_cons_self⟩
  exact hone p.1 (List.mem_append_right _ hkey) v
    (List.mem_append_left _ (Expr.mem_vars_of_mem_free hv)) hname

namespace Near

def i : Var := ⟨"i", .int⟩

def y : Var := ⟨"y", .int⟩

def z : Var := ⟨"z", .int⟩

/-- One predicate, and integers from -2 to 2. -/
def ev : Evaluator := ⟨[⟨"near", [z], .binary .le (.var z) (.int 3)⟩], -2, 2⟩

/-- Both replacements mention the name of the binder. -/
def formula : Expr :=
  .quant .ex [i]
    (.and (.binary .gt (.var i) (.var y)) (.apply "near" [.binary .add (.var i) (.var z)]))

def replacements : Subst :=
  [(y, .binary .sub (.var i) (.int 2)), (z, .binary .add (.var i) (.var y))]

def assignment : Assignment := .ofPairs [(i, .int 1), (y, .int 2)]

theorem replacements_evaluate :
    ∀ v ∈ formula.free, ∀ r, replacements.find? v = some r → ∃ x, ev.eval r assignment = .ok x := by
  have hfree : formula.free = [y, z] := by decide
  rw [hfree]
  intro v hv r hr
  simp only [List.mem_cons, List.not_mem_nil, or_false] at hv
  rcases hv with rfl | rfl
  · cases hr
    exact ⟨.int (-1), rfl⟩
  · cases hr
    exact ⟨.int 3, rfl⟩

end Near

theorem Evaluator.eval_subst_near :
    OneType (Near.formula.vars ++ Near.replacements.vars) ∧
    Near.ev.eval (Near.formula.subst Near.replacements) Near.assignment =
      Near.ev.eval Near.formula (Near.replacements.rebind Near.ev Near.assignment) :=
  have hone : OneType (Near.formula.vars ++ Near.replacements.vars) := by decide
  ⟨hone, Evaluator.eval_subst Near.ev hone Near.assignment Near.replacements_evaluate⟩

end Cutpoint
