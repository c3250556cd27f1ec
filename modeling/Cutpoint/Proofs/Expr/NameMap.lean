import Mathlib.Data.List.Forall2
import Cutpoint.Proofs.Expr.Free

/-!
# Maps from names

States, valuations, bindings and environments give something to names. Below binders, and for the
parameters of a predicate or a procedure, they are changed at some variables.

* `NameMap.bind σ vs as`: the map with `as` for the variables `vs`;
* `NameMap.get σ vs`: what it has for variables;
* `NameMap.Fits P σ vs`: what it has for each of the variables is as `P` says, and
  `NameMap.Fits.bind`: so it is after a change by what is as `P` says;
* `Var.TypedBy ty vs as`: the items have the sorts of the variables.
-/

set_option autoImplicit false

namespace Cutpoint

abbrev NameMap (α : Type) := String → α

namespace NameMap
variable {α : Type} {σ τ : NameMap α} {vs ws : List Var} {as bs : List α} {x : String}

/-- The map with items for the given variables. Of variables with the same name the last one
counts. -/
def bind (σ : NameMap α) (vs : List Var) (as : List α) : NameMap α :=
  fun x => (Var.lookup vs as x).getD (σ x)

@[simp] theorem bind_nil (σ : NameMap α) (as : List α) : σ.bind [] as = σ := by
  funext x
  simp [bind]

theorem bind_of_not_mem (h : x ∉ Var.names vs) : σ.bind vs as x = σ x := by
  rw [bind, Var.lookup_eq_none as h, Option.getD_none]

theorem bind_of_lookup {a : α} (h : Var.lookup vs as x = some a) : σ.bind vs as x = a := by
  rw [bind, h, Option.getD_some]

/-- A name that gets an item has it whatever it had before. -/
theorem bind_congr (hlen : vs.length ≤ as.length) (h : x ∉ Var.names vs → σ x = τ x) :
    σ.bind vs as x = τ.bind vs as x := by
  by_cases hx : x ∈ Var.names vs
  · obtain ⟨a, ha⟩ := Option.isSome_iff_exists.1 (Var.lookup_isSome hlen hx)
    rw [bind_of_lookup ha, bind_of_lookup ha]
  · rw [bind_of_not_mem hx, bind_of_not_mem hx, h hx]

/-- Items for variables of different names can be given in either order. -/
theorem bind_comm (bs : List α) (h : ∀ x ∈ Var.names ws, x ∉ Var.names vs) :
    (σ.bind vs as).bind ws bs = (σ.bind ws bs).bind vs as := by
  funext x
  by_cases hx : x ∈ Var.names ws
  · rw [bind_of_not_mem (σ := σ.bind ws bs) (h x hx)]
    simp only [bind, Var.lookup_eq_none as (h x hx), Option.getD_none]
  · rw [bind_of_not_mem (σ := σ.bind vs as) hx]
    simp only [bind, Var.lookup_eq_none bs hx, Option.getD_none]

/-- Later items replace earlier ones. -/
theorem bind_bind (hlen : vs.length ≤ bs.length) : (σ.bind vs as).bind vs bs = σ.bind vs bs := by
  funext x
  exact bind_congr hlen fun hx => bind_of_not_mem hx

/-! ## Items of variables -/

def get (σ : NameMap α) (vs : List Var) : List α := vs.map fun v => σ v.name

@[simp] theorem get_length (σ : NameMap α) (vs : List Var) : (σ.get vs).length = vs.length := by
  simp [get]

theorem lookup_get (σ : NameMap α) (h : x ∈ Var.names vs) :
    Var.lookup vs (σ.get vs) x = some (σ x) := by
  obtain ⟨v, hv, rfl⟩ := Var.exists_lookup_self h
  rw [get, Var.lookup_map, hv, Option.map_some]

/-- Variables of different names have the items that they were given. -/
theorem get_bind (hnodup : (Var.names vs).Nodup) (hlen : as.length = vs.length) :
    (σ.bind vs as).get vs = as := by
  induction vs generalizing as with
  | nil => exact (List.length_eq_zero_iff.1 hlen).symm
  | cons v vs ih =>
    obtain ⟨a, as, rfl⟩ := List.exists_cons_of_length_eq_add_one hlen
    obtain ⟨hv, hnodup⟩ := List.nodup_cons.1 hnodup
    have hlen' : as.length = vs.length := by simpa using hlen
    rw [get, List.map_cons]
    congr 1
    · rw [bind, Var.lookup_cons, Var.lookup_eq_none as hv, if_pos rfl]
      rfl
    · refine Eq.trans (List.map_congr_left fun w hw => ?_) (ih hnodup hlen')
      obtain ⟨c, hc⟩ := Option.isSome_iff_exists.1
        (Var.lookup_isSome (Nat.le_of_eq hlen'.symm) (name_mem_names hw))
      rw [bind_of_lookup hc, bind, Var.lookup_cons, hc, Option.some_or, Option.getD_some]

theorem bind_get_of_mem (h : x ∈ Var.names vs) : σ.bind vs (τ.get vs) x = τ x :=
  bind_of_lookup (lookup_get τ h)

/-- A map of the items goes through a change. -/
theorem map_bind {β : Type} (f : α → β) (σ : NameMap α) (vs : List Var) (as : List α)
    (x : String) : f (σ.bind vs as x) = NameMap.bind (fun y => f (σ y)) vs (as.map f) x := by
  rw [bind, bind, Var.lookup_map]
  cases Var.lookup vs as x <;> rfl

/-! ## Properties of items -/

/-- What the map has for each of the variables is as `P` says. -/
def Fits (P : Var → α → Prop) (σ : NameMap α) (vs : List Var) : Prop := ∀ v ∈ vs, P v (σ v.name)

variable {P : Var → α → Prop}

theorem Fits.mono (h : σ.Fits P ws) (hs : ∀ v ∈ vs, v ∈ ws) : σ.Fits P vs :=
  fun v hv => h v (hs v hv)

/-- The last variable of its name stands beside the item that the name gets. -/
theorem exists_lookup_of_binds (has : List.Forall₂ P vs as) {v : Var} (hv : Var.Binds vs v) :
    ∃ a, Var.lookup vs as v.name = some a ∧ P v a := by
  induction has with
  | nil => cases hv
  | @cons w a vs as hw has ih =>
    rw [Var.lookup_cons]
    rcases Var.binds_cons.1 hv with hv | ⟨rfl, hn⟩
    · obtain ⟨b, hb, hP⟩ := ih hv
      exact ⟨b, by rw [hb, Option.some_or], hP⟩
    · exact ⟨a, by rw [Var.lookup_eq_none as hn, Option.none_or, if_pos rfl], hw⟩

/-- Variables that are bound fit what they are bound to, and the others have what they had. -/
theorem Fits.bind (has : List.Forall₂ P vs as)
    (hin : ∀ w ∈ ws, w.name ∈ Var.names vs → Var.Binds vs w)
    (hout : ∀ w ∈ ws, w.name ∉ Var.names vs → P w (σ w.name)) : (σ.bind vs as).Fits P ws := by
  intro w hw
  by_cases hn : w.name ∈ Var.names vs
  · obtain ⟨a, ha, hP⟩ := exists_lookup_of_binds has (hin w hw hn)
    rwa [bind_of_lookup ha]
  · rw [bind_of_not_mem hn]
    exact hout w hw hn

end NameMap

/-! ## Sorts of items -/

namespace Var
variable {α : Type} {ty : α → Ty} {vs : List Var} {as : List α}

/-- The items have the sorts of the variables. -/
def TypedBy (ty : α → Ty) (vs : List Var) (as : List α) : Prop := as.map ty = vs.map Var.ty

theorem TypedBy.length (h : TypedBy ty vs as) : as.length = vs.length := by
  have hlen := congrArg List.length h
  simpa using hlen

theorem typedBy_congr {ws : List Var} (h : vs.map Var.ty = ws.map Var.ty) (as : List α) :
    TypedBy ty vs as ↔ TypedBy ty ws as := by
  rw [TypedBy, TypedBy, h]

theorem TypedBy.forall₂ (h : TypedBy ty vs as) : List.Forall₂ (fun v a => ty a = v.ty) vs as := by
  have hsame : List.Forall₂ Eq (as.map ty) (vs.map Var.ty) := by
    rw [List.forall₂_eq_eq_eq]
    exact h
  rw [List.forall₂_map_left_iff, List.forall₂_map_right_iff] at hsame
  exact hsame.flip

end Var

end Cutpoint
