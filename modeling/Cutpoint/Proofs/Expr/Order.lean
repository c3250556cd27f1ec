import Mathlib.Data.List.Nodup
import Cutpoint.Proofs.Expr.Free

/-!
# The order of free variables

`Var.lt` is a strict total order, `insertBy` keeps a list ascending, and so the free variables of an
expression are listed in ascending order (`Expr.free_ascending`), each once. Where they share no
name, the names are different too (`Expr.names_free_nodup`).
-/

set_option autoImplicit false

namespace Cutpoint

/-! ## Sorts and variables -/

namespace Ty

theorem lt_irrefl (t : Ty) : t.lt t = false := by
  induction t with
  | int | bool => rfl
  | array t ih => exact ih

theorem lt_trans {s t u : Ty} (hst : s.lt t = true) (htu : t.lt u = true) : s.lt u = true := by
  induction s generalizing t u with
  | int | bool => cases t <;> cases u <;> simp_all [lt]
  | array s ih =>
    cases t with
    | int | bool => cases hst
    | array t =>
      cases u with
      | int | bool => cases htu
      | array u => exact ih hst htu

theorem lt_connected {s t : Ty} (h : s.lt t = false) (hne : s ≠ t) : t.lt s = true := by
  induction s generalizing t with
  | int | bool => cases t <;> simp_all [lt]
  | array s ih =>
    cases t with
    | int | bool => rfl
    | array t => exact ih h fun heq => hne (congrArg array heq)

end Ty

namespace Var

theorem lt_iff {v w : Var} :
    v.lt w = true ↔ v.name < w.name ∨ (v.name = w.name ∧ v.ty.lt w.ty = true) := by
  simp [lt]

theorem lt_irrefl (v : Var) : ¬ v.lt v = true := by
  rw [lt_iff, Ty.lt_irrefl]
  exact fun h => h.elim (String.lt_irrefl _) fun heq => Bool.false_ne_true heq.2

theorem lt_trans {u v w : Var} (huv : u.lt v = true) (hvw : v.lt w = true) : u.lt w = true := by
  rw [lt_iff] at huv hvw ⊢
  rcases huv with huv | ⟨hn, huv⟩
  · rcases hvw with hvw | ⟨hn, -⟩
    · exact .inl (String.lt_trans huv hvw)
    · exact .inl (hn ▸ huv)
  · rcases hvw with hvw | ⟨hn', hvw⟩
    · exact .inl (hn ▸ hvw)
    · exact .inr ⟨hn.trans hn', Ty.lt_trans huv hvw⟩

theorem lt_connected {v w : Var} (h : ¬ v.lt w = true) (hne : v ≠ w) : w.lt v = true := by
  rw [lt_iff, not_or] at h
  rw [lt_iff]
  rcases Std.lt_trichotomy v.name w.name with hlt | heq | hgt
  · exact absurd hlt h.1
  · have hty : v.ty.lt w.ty = false := Bool.eq_false_iff.2 fun hty => h.2 ⟨heq, hty⟩
    refine .inr ⟨heq.symm, Ty.lt_connected hty fun ht => hne ?_⟩
    rcases v with ⟨n, t⟩
    rcases w with ⟨m, u⟩
    cases heq
    cases ht
    rfl
  · exact .inl hgt

end Var

/-! ## Ascending lists -/

/-- Every variable comes before all that follow it. -/
abbrev Var.Ascending (vs : List Var) : Prop := vs.Pairwise fun v w => v.lt w = true

theorem ascending_insertBy {v : Var} {vs : List Var} (h : Var.Ascending vs) :
    Var.Ascending (insertBy Var.lt v vs) := by
  induction vs with
  | nil => exact List.pairwise_singleton _ _
  | cons w vs ih =>
    obtain ⟨hw, hvs⟩ := List.pairwise_cons.1 h
    unfold insertBy
    split
    · exact h
    · next hne =>
      split
      · next hlt =>
        refine List.pairwise_cons.2 ⟨fun u hu => ?_, h⟩
        rcases List.mem_cons.1 hu with rfl | hu
        · exact hlt
        · exact Var.lt_trans hlt (hw u hu)
      · next hlt =>
        refine List.pairwise_cons.2 ⟨fun u hu => ?_, ih hvs⟩
        rcases (mem_insertBy Var.lt v u vs).1 hu with rfl | hu
        · exact Var.lt_connected hlt hne
        · exact hw u hu

namespace Expr

theorem ascending_collectFree (e : Expr) (hidden : List String) {acc : List Var}
    (h : Var.Ascending acc) : Var.Ascending (e.collectFree hidden acc) := by
  induction e generalizing hidden acc with
  | bool b | int n => exact h
  | var v =>
    show Var.Ascending (if hidden.contains v.name then acc else insertBy Var.lt v acc)
    split
    · exact h
    · exact ascending_insertBy h
  | unary op e ih | length e ih => exact ih hidden h
  | binary op l r hl hr | select l r hl hr => exact hr hidden (hl hidden h)
  | update a i v l ha hi hv hl => exact hl hidden (hv hidden (hi hidden (ha hidden h)))
  | apply p es ih =>
    show Var.Ascending (collectFrees hidden es acc)
    induction es generalizing acc with
    | nil => exact h
    | cons e es ihs =>
      exact ihs
        (fun e' he' => ih e' (List.mem_cons_of_mem _ he')) (ih e List.mem_cons_self hidden h)
  | quant q bs e ih => exact ih _ h

theorem free_ascending (e : Expr) : Var.Ascending e.free :=
  ascending_collectFree e [] List.Pairwise.nil

/-- Free variables that share no name have different names. -/
theorem names_free_nodup {e : Expr} (h : OneType e.free) : (Var.names e.free).Nodup := by
  have hnodup : e.free.Nodup := by
    refine (free_ascending e).imp fun {v w} hlt heq => ?_
    exact Var.lt_irrefl w (heq ▸ hlt)
  exact List.Nodup.map_on (fun v hv w hw => h v hv w hw) hnodup

end Expr

end Cutpoint
