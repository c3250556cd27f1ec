import Cutpoint.Proofs.Meaning.Basic

/-!
# The meaning of variables for variables

Where a substitution replaces variables by variables (`Subst.Renames`), a substituted expression has
in a state the value that the expression has in the state where the variables have the values of
those that stand for them (`Interp.value_subst_renames`).
-/

set_option autoImplicit false

namespace Cutpoint

namespace Interp

theorem holds_subst {I : Interp} {s : Subst} {e : Expr} {σ τ : State} (he : e.Scoped)
    (h : ∀ v ∈ e.free, τ v.name = I.value σ (s.image v)) : I.Holds σ (e.subst s) ↔ I.Holds τ e := by
  rw [Holds, Holds, I.value_subst he h]

end Interp

/-! ## Variables for variables -/

/-- Among the variables `rs` and then `ps` the substitution finds one of the name of `v`, and
replaces `v` by the variable of `ws` or `us` that stands beside it. -/
def Subst.Renames (s : Subst) (rs ws ps us : List Var) (v : Var) : Prop :=
  s.find? v = (Var.lookup rs (ws.map Expr.var) v.name).or (Var.lookup ps (us.map Expr.var) v.name)

namespace Subst.Renames
variable {s : Subst} {rs ws ps us : List Var} {v : Var}

/-- What becomes of a variable is a variable, and a variable stays only if its name is not among
those that are replaced. -/
theorem image_eq (h : s.Renames rs ws ps us v) (hrs : rs.length ≤ ws.length)
    (hps : ps.length ≤ us.length) :
    ∃ u, s.image v = .var u ∧
      (u ∈ ws ∨ u ∈ us ∨ (u = v ∧ v.name ∉ Var.names rs ∧ v.name ∉ Var.names ps)) := by
  have found : ∀ {vs xs : List Var} {e : Expr}, Var.lookup vs (xs.map Expr.var) v.name = some e →
      ∃ u ∈ xs, e = .var u := by
    intro vs xs e he
    obtain ⟨u, hu, rfl⟩ := List.mem_map.1 (Var.mem_of_lookup he)
    exact ⟨u, hu, rfl⟩
  have missing : ∀ {vs xs : List Var}, vs.length ≤ xs.length →
      Var.lookup vs (xs.map Expr.var) v.name = none →
      v.name ∉ Var.names vs := by
    intro vs xs hlen hn hv
    have := @Var.lookup_isSome Expr vs (xs.map Expr.var) (by simpa using hlen) _ hv
    rw [hn] at this
    cases this
  cases hr : Var.lookup rs (ws.map Expr.var) v.name with
  | some e =>
    obtain ⟨u, hu, rfl⟩ := found hr
    exact ⟨u, by rw [Subst.image, h, hr]; rfl, Or.inl hu⟩
  | none =>
    cases hp : Var.lookup ps (us.map Expr.var) v.name with
    | some e =>
      obtain ⟨u, hu, rfl⟩ := found hp
      exact ⟨u, by rw [Subst.image, h, hr, hp]; rfl, Or.inr (Or.inl hu)⟩
    | none =>
      exact ⟨v, by rw [Subst.image, h, hr, hp]; rfl,
        Or.inr (Or.inr ⟨rfl, missing hrs hr, missing hps hp⟩)⟩

theorem value_image (h : s.Renames rs ws ps us v) (I : Interp) (σ : State) :
    I.value σ (s.image v) = (σ.bind ps (σ.get us)).bind rs (σ.get ws) v.name := by
  simp only [Subst.image, Subst.Renames, NameMap.bind, NameMap.get, Var.lookup_map] at h ⊢
  rw [h]
  cases Var.lookup rs ws v.name <;> cases Var.lookup ps us v.name <;> rfl

end Subst.Renames

theorem Expr.Scoped.subst_renames {e : Expr} (he : e.Scoped) {s : Subst} {rs ws ps us : List Var}
    (h : ∀ v ∈ e.free, s.Renames rs ws ps us v) (hrs : rs.length ≤ ws.length)
    (hps : ps.length ≤ us.length) : (e.subst s).Scoped := by
  refine he.subst fun v hv => ?_
  obtain ⟨u, hu, -⟩ := (h v hv).image_eq hrs hps
  rw [hu]
  trivial

/-- The free variables where variables were replaced by variables. -/
theorem Expr.mem_free_subst_renames {e : Expr} (he : e.Scoped) {s : Subst} {rs ws ps us : List Var}
    (h : ∀ v ∈ e.free, s.Renames rs ws ps us v) (hrs : rs.length ≤ ws.length)
    (hps : ps.length ≤ us.length) {w : Var} (hw : w ∈ (e.subst s).free) :
    w ∈ ws ∨ w ∈ us ∨ (w ∈ e.free ∧ w.name ∉ Var.names rs ∧ w.name ∉ Var.names ps) := by
  obtain ⟨v, hv, hw⟩ := (Expr.mem_free_subst s he).1 hw
  obtain ⟨u, hu, hcases⟩ := (h v hv).image_eq hrs hps
  rw [hu, Expr.mem_free_var] at hw
  subst hw
  rcases hcases with h | h | ⟨rfl, h⟩
  · exact Or.inl h
  · exact Or.inr (Or.inl h)
  · exact Or.inr (Or.inr ⟨hv, h⟩)

theorem Interp.value_subst_renames (I : Interp) {e : Expr} (he : e.Scoped) {s : Subst}
    {rs ws ps us : List Var} (h : ∀ v ∈ e.free, s.Renames rs ws ps us v)
    (σ : State) : I.value σ (e.subst s) = I.value ((σ.bind ps (σ.get us)).bind rs (σ.get ws)) e :=
  I.value_subst he fun v hv => ((h v hv).value_image I σ).symm

theorem Interp.holds_subst_renames {I : Interp} {e : Expr} (he : e.Scoped) {s : Subst}
    {rs ws ps us : List Var} (h : ∀ v ∈ e.free, s.Renames rs ws ps us v) (σ : State) :
    I.Holds σ (e.subst s) ↔ I.Holds ((σ.bind ps (σ.get us)).bind rs (σ.get ws)) e := by
  rw [Interp.Holds, Interp.Holds, I.value_subst_renames he h]

theorem Subst.ofRenaming_renames {vs ws : List Var} (hlen : ws.length = vs.length)
    {v : Var} (h : ∀ u ∈ vs, u.name = v.name → u = v) :
    (Subst.ofRenaming (vs.zip ws)).Renames [] [] vs ws v := by
  have hzip : (vs.zip ws).map (fun p => (p.1, Expr.var p.2)) = vs.zip (ws.map Expr.var) :=
    (List.zip_map_right ..).symm
  rw [Subst.Renames, Subst.ofRenaming, hzip, Subst.find?_ofPairs (by simpa using hlen) h,
    Var.lookup_nil, Option.none_or]

end Cutpoint
