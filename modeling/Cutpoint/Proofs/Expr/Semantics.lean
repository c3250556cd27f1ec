import Cutpoint.Proofs.Expr.NameMap
import Cutpoint.Proofs.Expr.Subst

/-!
# Compositional semantics

Formulas have a meaning in states, and the evaluator gives them a value or an error in environments.
Both go through an expression in the same way.

* `Semantics`: worlds that give something to names, and a value of every expression in a world that
  is made of the values of its parts;
* `Semantics.value_congr`: the value depends on what the world gives to the free variables;
* `Semantics.value_subst`: a substituted expression has the value that the expression has in a world
  where the variables have the values of what became of them.

The induction for the latter is on the depth. Below binders it is used once for the renaming and
once for the replacements, with a world between the two passes (`Semantics.Between`).
-/

set_option autoImplicit false

namespace Cutpoint

/-- Values of expressions, of the type `ρ`, in worlds of the type `ω`, where binders range over
`δ`. -/
structure Semantics (ω δ ρ : Type) where
  /-- What a world gives to names. -/
  look : ω → NameMap ρ
  /-- The world with items for variables. -/
  bind : ω → List Var → List δ → ω
  /-- What a name has that is bound to an item. -/
  given : δ → ρ
  value : ω → Expr → ρ
  look_bind : ∀ w vs ds, look (bind w vs ds) = (look w).bind vs (ds.map given)
  /-- A world can be like one for some names and like another for the rest. -/
  exists_mixed : ∀ (k : String → Bool) (u w : ω),
    ∃ m, ∀ x, look m x = if k x then look w x else look u x
  value_bool : ∀ u w b, value u (.bool b) = value w (.bool b)
  value_int : ∀ u w n, value u (.int n) = value w (.int n)
  value_var : ∀ w v, value w (.var v) = look w v.name
  value_unary : ∀ {u w d e} op, value u d = value w e →
    value u (.unary op d) = value w (.unary op e)
  value_binary : ∀ {u w d e d' e'} op, value u d = value w e → value u d' = value w e' →
    value u (.binary op d d') = value w (.binary op e e')
  value_select : ∀ {u w a b i j}, value u a = value w b → value u i = value w j →
    value u (.select a i) = value w (.select b j)
  value_length : ∀ {u w a b}, value u a = value w b → value u (.length a) = value w (.length b)
  value_update : ∀ {u w a b i j d e k l}, value u a = value w b → value u i = value w j →
    value u d = value w e → value u k = value w l →
    value u (.update a i d k) = value w (.update b j e l)
  value_apply : ∀ {u w ds es} p, ds.map (value u) = es.map (value w) →
    value u (.apply p ds) = value w (.apply p es)
  value_quant : ∀ {u w d e} {bs cs : List Var} q, bs.map Var.ty = cs.map Var.ty →
    (∀ xs, xs.length = bs.length → value (bind u bs xs) d = value (bind w cs xs) e) →
    value u (.quant q bs d) = value w (.quant q cs e)

namespace Semantics
variable {ω δ ρ : Type} (S : Semantics ω δ ρ)

/-- The value depends on the free variables only. -/
theorem value_congr {e : Expr} {u w : ω} (h : ∀ v ∈ e.free, S.look u v.name = S.look w v.name) :
    S.value u e = S.value w e := by
  induction e generalizing u w with
  | bool b => exact S.value_bool u w b
  | int n => exact S.value_int u w n
  | var v => rw [S.value_var, S.value_var, h v (by simp)]
  | unary op e ih => exact S.value_unary op (ih fun v hv => h v (by simpa using hv))
  | length e ih => exact S.value_length (ih fun v hv => h v (by simpa using hv))
  | binary op l r hl hr =>
    exact S.value_binary op (hl fun v hv => h v (by simp [hv])) (hr fun v hv => h v (by simp [hv]))
  | select a i ha hi =>
    exact S.value_select (ha fun v hv => h v (by simp [hv])) (hi fun v hv => h v (by simp [hv]))
  | update a i x l ha hi hx hl =>
    exact S.value_update (ha fun v hv => h v (by simp [hv])) (hi fun v hv => h v (by simp [hv]))
      (hx fun v hv => h v (by simp [hv])) (hl fun v hv => h v (by simp [hv]))
  | apply p es ih =>
    refine S.value_apply p (List.map_congr_left fun e he => ih e he fun v hv => ?_)
    exact h v ((Expr.mem_free_apply p es).2 ⟨e, he, hv⟩)
  | quant q bs e ih =>
    refine S.value_quant q rfl fun xs hxs => ih fun v hv => ?_
    rw [S.look_bind, S.look_bind]
    have hlen : bs.length ≤ (xs.map S.given).length := by simp [hxs]
    exact NameMap.bind_congr hlen fun hn => h v ((Expr.mem_free_quant q bs e).2 ⟨hv, hn⟩)

/-! ## Between the passes -/

/-- Whether a name is that of a free variable which the binders do not hide. -/
def isOuter (bs : List Var) (e : Expr) (x : String) : Bool :=
  (Var.names e.free).contains x && !(Var.names bs).contains x

/-- The world between the two passes below binders: the free variables that are not bound are as in
`w`, and all other names are as in `u`, below the new binders. -/
def Between (bs : List Var) (e : Expr) (u w m : ω) : Prop :=
  ∀ x, S.look m x = if isOuter bs e x then S.look w x else S.look u x

variable {S} {s : Subst} {bs : List Var} {e : Expr} {u w m : ω}

theorem Between.of_free (hm : S.Between bs e u w m) {v : Var} (hv : v ∈ e.free)
    (hn : v.name ∉ Var.names bs) : S.look m v.name = S.look w v.name := by
  rw [hm, if_pos (by simp [isOuter, name_mem_names hv, hn])]

/-- The new binders hide no free variable that was not bound. -/
theorem Between.of_freshened (hm : S.Between bs e u w m) {x : String}
    (hx : x ∈ Var.names (s.freshened bs e).1) : S.look m x = S.look u x := by
  rw [hm, if_neg]
  intro houter
  simp only [isOuter, Bool.and_eq_true, List.contains_iff_mem, Bool.not_eq_true'] at houter
  obtain ⟨hfree, hn⟩ := houter
  obtain ⟨v, hv, rfl⟩ := mem_names.1 hfree
  exact s.name_not_mem_freshened bs e hv (by simpa using hn) hx

section Passes
variable {xs : List δ} (hm : S.Between bs e (S.bind u (s.freshened bs e).1 xs) w m)
  (hbinds : ∀ v ∈ e.free, v.name ∈ Var.names bs → Var.Binds bs v)
include hm hbinds

/-- The first pass: a binder is found under its new name, and what is not bound stays. -/
theorem Between.value_freshened (hlen : xs.length = bs.length) {v : Var} (hv : v ∈ e.free) :
    S.look (S.bind w bs xs) v.name = S.value m ((s.freshened bs e).2.image v) := by
  rw [S.look_bind]
  by_cases hname : v.name ∈ Var.names bs
  · obtain ⟨f, hf, hbf, hlookup⟩ := s.freshened_binds bs e (hbinds v hv hname)
    have hlen' : (xs.map S.given).length = bs.length := by rw [List.length_map, hlen]
    obtain ⟨y, hy⟩ := Option.isSome_iff_exists.1
      (Var.lookup_isSome (Nat.le_of_eq hlen'.symm) hname)
    rw [hf, S.value_var, hm.of_freshened (name_mem_names hbf.mem), S.look_bind,
      NameMap.bind_of_lookup hy, NameMap.bind_of_lookup ((hlookup _ hlen').trans hy)]
  · rw [s.freshened_image_of_not_mem bs e hname, S.value_var, hm.of_free hv hname,
      NameMap.bind_of_not_mem hname]

/-- The second pass: no new binder captures a variable of a replacement. -/
theorem Between.value_live (he : e.Scoped)
    (h : ∀ v ∈ e.free, v.name ∉ Var.names bs → S.look w v.name = S.value u (s.image v)) {v : Var}
    (hv : v ∈ (e.subst (s.freshened bs e).2).free) :
    S.look m v.name =
      S.value (S.bind u (s.freshened bs e).1 xs) ((s.live bs e.free).image v) := by
  obtain ⟨o, ho, hov⟩ := (Expr.mem_free_subst _ he).1 hv
  by_cases hname : o.name ∈ Var.names bs
  · obtain ⟨f, hf, hbf, -⟩ := s.freshened_binds bs e (hbinds o ho hname)
    rw [hf, Expr.mem_free_var] at hov
    subst hov
    have hmem := name_mem_names hbf.mem
    rw [s.image_live_of_freshened bs e hmem, S.value_var, hm.of_freshened hmem]
  · rw [s.freshened_image_of_not_mem bs e hname, Expr.mem_free_var] at hov
    subst hov
    rw [hm.of_free ho hname, s.image_live bs e ho hname, h v ho hname]
    refine S.value_congr fun a ha => ?_
    rw [S.look_bind,
      NameMap.bind_of_not_mem (s.image_name_not_mem_freshened bs e ho hname ha)]

end Passes

/-! ## Substitution -/

variable (S) in
theorem value_substTo {n : Nat} {s : Subst} {e : Expr} {u w : ω} (hn : e.depth ≤ n) (he : e.Scoped)
    (h : ∀ v ∈ e.free, S.look w v.name = S.value u (s.image v)) :
    S.value u (e.subst s) = S.value w e := by
  induction n generalizing s e u w with
  | zero => cases e <;> simp [Expr.depth] at hn
  | succ n ih =>
    cases e with
    | bool b =>
      rw [Expr.subst_bool]
      exact S.value_bool u w b
    | int k =>
      rw [Expr.subst_int]
      exact S.value_int u w k
    | var v => rw [Expr.subst_var, S.value_var, h v (by simp)]
    | unary op e =>
      simp only [Expr.depth] at hn
      rw [Expr.subst_unary]
      exact S.value_unary op (ih (by omega) he fun v hv => h v (by simpa using hv))
    | binary op l r =>
      simp only [Expr.depth] at hn
      rw [Expr.subst_binary]
      exact S.value_binary op (ih (by omega) he.1 fun v hv => h v (by simp [hv]))
        (ih (by omega) he.2 fun v hv => h v (by simp [hv]))
    | select a i =>
      simp only [Expr.depth] at hn
      rw [Expr.subst_select]
      exact S.value_select (ih (by omega) he.1 fun v hv => h v (by simp [hv]))
        (ih (by omega) he.2 fun v hv => h v (by simp [hv]))
    | length a =>
      simp only [Expr.depth] at hn
      rw [Expr.subst_length]
      exact S.value_length (ih (by omega) he fun v hv => h v (by simpa using hv))
    | update a i x l =>
      simp only [Expr.depth] at hn
      rw [Expr.subst_update]
      exact S.value_update (ih (by omega) he.1 fun v hv => h v (by simp [hv]))
        (ih (by omega) he.2.1 fun v hv => h v (by simp [hv]))
        (ih (by omega) he.2.2.1 fun v hv => h v (by simp [hv]))
        (ih (by omega) he.2.2.2 fun v hv => h v (by simp [hv]))
    | apply p es =>
      simp only [Expr.depth] at hn
      rw [Expr.subst_apply]
      refine S.value_apply p ?_
      rw [List.map_map]
      refine List.map_congr_left fun e hmem => ?_
      have hdepth := Expr.depth_le_depths hmem
      exact ih (by omega) (Expr.scopedAll_iff.1 he e hmem) fun v hv =>
        h v ((Expr.mem_free_apply p es).2 ⟨e, hmem, hv⟩)
    | quant q bs e =>
      simp only [Expr.depth] at hn
      obtain ⟨hscope, hbinds⟩ := he
      simp only [Expr.mem_free_quant, and_imp] at h
      rw [Expr.subst_quant]
      split
      · next hempty =>
        refine S.value_congr fun v hv => ?_
        obtain ⟨hv, hname⟩ := (Expr.mem_free_quant q bs e).1 hv
        rw [h v hv hname, s.image_of_live_isEmpty bs e hempty hv hname, S.value_var]
      · refine S.value_quant q (s.freshened_map_ty bs e) fun xs hxs => ?_
        have hlen : xs.length = bs.length := hxs.trans (s.length_freshened bs e)
        have hren := s.freshened_isRenaming bs e
        have hdepth := Expr.depth_subst hren e
        obtain ⟨m, hm⟩ := S.exists_mixed (isOuter bs e) (S.bind u (s.freshened bs e).1 xs) w
        have hbetween : S.Between bs e (S.bind u (s.freshened bs e).1 xs) w m := hm
        rw [ih (by omega) (hscope.subst fun v _ => hren.scoped_image v) fun v hv =>
            hbetween.value_live hbinds hscope h hv,
          ih (by omega) hscope fun v hv => hbetween.value_freshened hbinds hlen hv]

variable (S) in
/-- A substituted expression has the value of the expression where the variables have the values of
what became of them. -/
theorem value_subst {s : Subst} {e : Expr} {u w : ω} (he : e.Scoped)
    (h : ∀ v ∈ e.free, S.look w v.name = S.value u (s.image v)) :
    S.value u (e.subst s) = S.value w e :=
  S.value_substTo (Nat.le_refl _) he h

end Semantics

end Cutpoint
