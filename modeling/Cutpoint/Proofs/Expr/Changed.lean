import Mathlib.Data.Finset.Union
import Cutpoint.Proofs.Expr.Nameless

/-!
# What a substitution changes

* `Subst.keys`: the variables that a substitution replaces;
* `Subst.live_isEmpty_iff`: the test below a binder, which looks at the free variables of the body
  and not at what becomes of it;
* `Expr.untouched_iff`: an expression is left as it is exactly if none of its free variables is
  replaced, whatever the sorts of its names;
* `Expr.free_subst`: the free variables of a substitution are those that are not replaced and those
  of the replacements.
-/

set_option autoImplicit false

namespace Cutpoint

namespace Subst

/-- The variables that are replaced. -/
def keys (s : Subst) : List Var := s.map Prod.fst

variable {s : Subst}

theorem find?_eq_none_iff {v : Var} : s.find? v = none ↔ v ∉ s.keys := by
  simp only [find?, keys, Option.map_eq_none_iff, List.find?_eq_none, List.mem_map,
    decide_eq_true_eq, not_exists, not_and]

theorem eq_nil_iff : s = [] ↔ ∀ v, s.find? v = none := by
  constructor
  · rintro rfl v
    exact find?_nil v
  · intro h
    refine List.eq_nil_iff_forall_not_mem.2 fun p hp => ?_
    exact find?_eq_none_iff.1 (h p.1) (List.mem_map_of_mem hp)

/-- No replacement reaches the body exactly if none of its free variables outside the binders is
replaced. -/
theorem live_isEmpty_iff (bs fr : List Var) :
    (s.live bs fr).isEmpty = true ↔ ∀ v ∈ fr, v.name ∉ Var.names bs → s.find? v = none := by
  rw [List.isEmpty_iff, eq_nil_iff]
  refine forall_congr' fun v => ?_
  rw [find?_live]
  split
  · next h => simp [h]
  · next h => grind

end Subst

namespace Expr

/-! ## Untouched expressions -/

theorem rebuilt?_eq_none_iff {es : List Expr} {new : List (Option Expr)} :
    rebuilt? es new = none ↔ ∀ n ∈ new, n = none := by
  simp [rebuilt?]

/-- The three rules by which a substitution says that it changed nothing agree with the free
variables: a variable is looked up, an expression stays if all of its parts do, and below binders
the replacements that reach the body are counted. -/
theorem substAux_eq_none_iff {n : Nat} {s : Subst} {e : Expr} (hn : e.depth ≤ n) :
    substAux n s e = none ↔ ∀ v ∈ e.free, s.find? v = none := by
  induction n generalizing e with
  | zero => cases e <;> simp [depth] at hn
  | succ n ih =>
    cases e with
    | bool b | int k => simp [substAux]
    | var v => simp [substAux]
    | unary op a | length a =>
      simp only [depth] at hn
      simpa [substAux] using ih (e := a) (by omega)
    | binary op l r | select l r =>
      simp only [depth] at hn
      have hl := ih (e := l) (by omega)
      have hr := ih (e := r) (by omega)
      simp only [mem_free_binary, mem_free_select, or_imp, forall_and, ← hl, ← hr, substAux]
      cases substAux n s l <;> cases substAux n s r <;> simp
    | update a i v l =>
      simp only [depth] at hn
      have ha := ih (e := a) (by omega)
      have hi := ih (e := i) (by omega)
      have hv := ih (e := v) (by omega)
      have hl := ih (e := l) (by omega)
      simp only [mem_free_update, or_imp, forall_and, ← ha, ← hi, ← hv, ← hl, substAux]
      cases substAux n s a <;> cases substAux n s i <;> cases substAux n s v <;>
        cases substAux n s l <;> simp
    | apply p es =>
      simp only [depth] at hn
      have hes : ∀ e ∈ es, (substAux n s e = none ↔ ∀ v ∈ e.free, s.find? v = none) := fun e he =>
        ih (by have := depth_le_depths he; omega)
      simp only [substAux, Option.map_eq_none_iff, rebuilt?_eq_none_iff, List.mem_map,
        forall_exists_index, and_imp, forall_apply_eq_imp_iff₂, mem_free_apply]
      constructor
      · intro h v e he hv
        exact (hes e he).1 (h e he) v hv
      · intro h e he
        exact (hes e he).2 fun v hv => h v e he hv
    | quant q bs a =>
      simp only [substAux, mem_free_quant, and_imp]
      rw [← s.live_isEmpty_iff]
      split
      · next h => simp [h]
      · next h => simp [h]

/-- **Substitution touches an expression exactly if it must**: nothing is replaced exactly if none
of the free variables of the expression has a replacement, and then the expression itself is the
result. Sorts play no part: a name may be bound at one sort and occur at another. -/
theorem untouched_iff (s : Subst) (e : Expr) :
    (e.subst? s = none ↔ ∀ v ∈ s.keys, v ∉ e.free) ∧ (e.subst? s = none → e.subst s = e) := by
  constructor
  · rw [subst?, substAux_eq_none_iff (Nat.le_refl _)]
    simp only [Subst.find?_eq_none_iff]
    exact ⟨fun h v hk hv => h v hv hk, fun h v hv hk => h v hk hv⟩
  · intro h
    rw [subst, h, Option.getD_none]

/-! ## Free variables -/

/-- **The free variables of a substitution**: if below a binder every occurrence of its name has the
sort of the innermost such binder, then they are the free variables of the expression without those
that are replaced, together with the free variables of the replacements of those that are. -/
theorem free_subst {e : Expr} (he : e.Scoped) (s : Subst) :
    (e.subst s).free.toFinset = (e.free.toFinset \ s.keys.toFinset) ∪
      (e.free.toFinset ∩ s.keys.toFinset).biUnion fun v => (s.image v).free.toFinset := by
  ext w
  simp only [List.mem_toFinset, Finset.mem_union, Finset.mem_sdiff, Finset.mem_biUnion,
    Finset.mem_inter, mem_free_subst s he]
  constructor
  · rintro ⟨v, hv, hw⟩
    by_cases hk : v ∈ s.keys
    · exact Or.inr ⟨v, ⟨hv, hk⟩, hw⟩
    · rw [Subst.image_of_find?_eq_none (Subst.find?_eq_none_iff.2 hk), mem_free_var] at hw
      exact Or.inl (hw ▸ ⟨hv, hk⟩)
  · rintro (⟨hw, hk⟩ | ⟨v, ⟨hv, -⟩, hw⟩)
    · refine ⟨w, hw, ?_⟩
      rw [Subst.image_of_find?_eq_none (Subst.find?_eq_none_iff.2 hk), mem_free_var]
    · exact ⟨v, hv, hw⟩

end Expr

/-- A replacement that comes below both binders, and one for a name that is bound only. -/
def Clash.mixed : Subst := [(y, .binary .add (.var i) (.var i₀)), (i, .var y)]

theorem Expr.free_subst_clash :
    Clash.formula.Scoped ∧
    (Clash.formula.subst Clash.mixed).free.toFinset = {Clash.z, Clash.i, Clash.i₀} :=
  ⟨Clash.formula_scoped, (free_subst Clash.formula_scoped Clash.mixed).trans (by decide)⟩

end Cutpoint
