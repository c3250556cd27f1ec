import Cutpoint.Proofs.Expr.Subst

/-!
# Substitution without names

Expressions whose bound variables are indices have no names that could be captured, and there
substitution is a plain recursion.

* `Nameless`: expressions in which a bound variable is the number of binders between it and its own;
* `Nameless.subst`: simultaneous substitution for free variables; a replacement that comes below
  binders is lifted over them;
* `Expr.nameless Γ e`: the nameless form of `e` below binders of the names `Γ`, the innermost first;
* `nameless_subst`: substitution that renames binders has the nameless form that substitution
  without names gives.

As in `Interp.value_subst` the induction is on the depth, and below binders it is used once for the
renaming and once for the replacements. The scope between the two passes has the new binders on top
of the old scope.
-/

set_option autoImplicit false

namespace Cutpoint

/-! ## Nameless expressions -/

/-- An expression in which bound variables are indices. A quantifier keeps the sorts of its binders;
index 0 is its last one. -/
inductive Nameless where
  | bool (value : Bool)
  | int (value : Int)
  | free (v : Var)
  | bound (index : Nat)
  | unary (op : UnOp) (operand : Nameless)
  | binary (op : BinOp) (lhs rhs : Nameless)
  | select (array index : Nameless)
  | length (array : Nameless)
  | update (array index value length : Nameless)
  | apply (predicate : String) (args : List Nameless)
  | quant (q : Quantifier) (sorts : List Ty) (body : Nameless)

namespace Nameless

mutual

/-- Makes room for `n` binders outside the innermost `cutoff` ones. -/
def lift (n : Nat) : (cutoff : Nat) → Nameless → Nameless
  | _, bool b => bool b
  | _, int k => int k
  | _, free v => free v
  | c, bound k => bound (if k < c then k else k + n)
  | c, unary op t => unary op (lift n c t)
  | c, binary op l r => binary op (lift n c l) (lift n c r)
  | c, select a i => select (lift n c a) (lift n c i)
  | c, length a => length (lift n c a)
  | c, update a i v l => update (lift n c a) (lift n c i) (lift n c v) (lift n c l)
  | c, apply p ts => apply p (liftAll n c ts)
  | c, quant q ss t => quant q ss (lift n (c + ss.length) t)

def liftAll (n : Nat) : (cutoff : Nat) → List Nameless → List Nameless
  | _, [] => []
  | c, t :: ts => lift n c t :: liftAll n c ts

end

mutual

/-- Replaces every free variable `v` by `θ v`. -/
def subst : (θ : Var → Nameless) → Nameless → Nameless
  | _, bool b => bool b
  | _, int k => int k
  | θ, free v => θ v
  | _, bound k => bound k
  | θ, unary op t => unary op (subst θ t)
  | θ, binary op l r => binary op (subst θ l) (subst θ r)
  | θ, select a i => select (subst θ a) (subst θ i)
  | θ, length a => length (subst θ a)
  | θ, update a i v l => update (subst θ a) (subst θ i) (subst θ v) (subst θ l)
  | θ, apply p ts => apply p (substAll θ ts)
  | θ, quant q ss t => quant q ss (subst (fun v => lift ss.length 0 (θ v)) t)

def substAll : (θ : Var → Nameless) → List Nameless → List Nameless
  | _, [] => []
  | θ, t :: ts => subst θ t :: substAll θ ts

end

theorem lift_bound (n c k : Nat) : (bound k).lift n c = bound (if k < c then k else k + n) := rfl

theorem liftAll_eq_map (n c : Nat) (ts : List Nameless) : liftAll n c ts = ts.map (lift n c) := by
  induction ts with
  | nil => rfl
  | cons t ts ih =>
    show lift n c t :: liftAll n c ts = _
    rw [ih, List.map_cons]

theorem substAll_eq_map (θ : Var → Nameless) (ts : List Nameless) :
    substAll θ ts = ts.map (subst θ) := by
  induction ts with
  | nil => rfl
  | cons t ts ih =>
    show subst θ t :: substAll θ ts = _
    rw [ih, List.map_cons]

/-- What the name of `v` refers to below binders of the names `Γ`. -/
def resolve (Γ : List String) (v : Var) : Nameless := (Γ.idxOf? v.name).elim (free v) bound

end Nameless

/-- The names that the binders `bs` put on top of a scope. -/
def Var.scope (bs : List Var) (Γ : List String) : List String := (Var.names bs).reverse ++ Γ

namespace Expr

mutual

/-- The nameless form below binders of the names `Γ`. -/
def nameless : (Γ : List String) → Expr → Nameless
  | _, bool b => .bool b
  | _, int k => .int k
  | Γ, var v => .resolve Γ v
  | Γ, unary op e => .unary op (nameless Γ e)
  | Γ, binary op l r => .binary op (nameless Γ l) (nameless Γ r)
  | Γ, select a i => .select (nameless Γ a) (nameless Γ i)
  | Γ, length a => .length (nameless Γ a)
  | Γ, update a i v l => .update (nameless Γ a) (nameless Γ i) (nameless Γ v) (nameless Γ l)
  | Γ, apply p es => .apply p (namelessAll Γ es)
  | Γ, quant q bs e => .quant q (bs.map Var.ty) (nameless (Var.scope bs Γ) e)

def namelessAll : (Γ : List String) → List Expr → List Nameless
  | _, [] => []
  | Γ, e :: es => nameless Γ e :: namelessAll Γ es

end

theorem namelessAll_eq_map (Γ : List String) (es : List Expr) :
    namelessAll Γ es = es.map (nameless Γ) := by
  induction es with
  | nil => rfl
  | cons e es ih =>
    show nameless Γ e :: namelessAll Γ es = _
    rw [ih, List.map_cons]

end Expr

/-- The nameless forms of the replacements; other variables stay. -/
def Subst.nameless (s : Subst) (v : Var) : Nameless :=
  match s.find? v with
  | some r => r.nameless []
  | none => .free v

theorem Subst.nameless_eq_image (s : Subst) (v : Var) : s.nameless v = (s.image v).nameless [] := by
  unfold Subst.nameless Subst.image
  cases s.find? v <;> rfl

/-! ## Scopes -/

namespace Nameless
variable {Γ Γ' : List String} {bs : List Var} {v : Var}

/-- The binder that a name refers to, counted from the last one. -/
theorem idxOf?_reverse_names (bs : List Var) (x : String) :
    (Var.names bs).reverse.idxOf? x = Var.lookup bs (List.range bs.length).reverse x := by
  induction bs with
  | nil => rfl
  | cons b bs ih =>
    have hnames : (Var.names (b :: bs)).reverse = (Var.names bs).reverse ++ [b.name] :=
      List.reverse_cons
    have hlength : (Var.names bs).reverse.length = bs.length := by simp [Var.names]
    rw [hnames, List.length_cons, List.range_succ, List.reverse_append, List.reverse_singleton,
      List.singleton_append, Var.lookup_cons, ← ih]
    unfold List.idxOf?
    rw [List.findIdx?_append, List.findIdx?_singleton, hlength]
    by_cases h : b.name = x <;> simp [h]

/-- A bound name refers to one of the binders, wherever they stand. -/
theorem resolve_scope_of_mem (h : v.name ∈ Var.names bs) :
    ∃ k < bs.length, Var.lookup bs (List.range bs.length).reverse v.name = some k ∧
      ∀ Γ, resolve (Var.scope bs Γ) v = bound k := by
  have hlength : bs.length ≤ (List.range bs.length).reverse.length := by simp
  obtain ⟨k, hk⟩ := Option.isSome_iff_exists.1 (Var.lookup_isSome hlength h)
  have hlt : k < bs.length := by simpa using Var.mem_of_lookup hk
  refine ⟨k, hlt, hk, fun Γ => ?_⟩
  have hfound : (Var.scope bs Γ).idxOf? v.name = some k := by
    rw [← idxOf?_reverse_names] at hk
    unfold List.idxOf? at hk ⊢
    rw [Var.scope, List.findIdx?_append, hk, Option.some_or]
  rw [resolve, hfound, Option.elim_some]

/-- Other names refer to what they referred to outside. -/
theorem resolve_scope_of_not_mem (Γ : List String) (h : v.name ∉ Var.names bs) :
    resolve (Var.scope bs Γ) v = (resolve Γ v).lift bs.length 0 := by
  have hnone : (Var.names bs).reverse.idxOf? v.name = none :=
    List.idxOf?_eq_none_iff.2 (by simpa using h)
  have hlength : (Var.names bs).reverse.length = bs.length := by simp [Var.names]
  have hfound : (Var.scope bs Γ).idxOf? v.name = (Γ.idxOf? v.name).map (· + bs.length) := by
    unfold List.idxOf? at hnone ⊢
    rw [Var.scope, List.findIdx?_append, hnone, Option.none_or, hlength]
  rw [resolve, resolve, hfound]
  cases Γ.idxOf? v.name <;> rfl

theorem resolve_cases (Γ : List String) (v : Var) :
    resolve Γ v = free v ∨ ∃ k, resolve Γ v = bound k := by
  unfold resolve
  cases Γ.idxOf? v.name with
  | none => exact Or.inl rfl
  | some k => exact Or.inr ⟨k, rfl⟩

theorem resolve_subst_free (Γ : List String) (v : Var) :
    (resolve Γ v).subst free = resolve Γ v := by
  rcases resolve_cases Γ v with h | ⟨k, h⟩ <;> rw [h] <;> rfl

theorem subst_resolve_lift (Γ : List String) (v : Var) (θ : Var → Nameless) (m : Nat) :
    ((resolve Γ v).subst θ).lift m 0 = ((resolve Γ v).lift m 0).subst fun w => (θ w).lift m 0 := by
  rcases resolve_cases Γ v with h | ⟨k, h⟩ <;> rw [h] <;> rfl

/-- Scopes that agree except for a replacement do so below more binders. -/
theorem resolve_scope_subst {θ : Var → Nameless}
    (h : v.name ∉ Var.names bs → resolve Γ' v = (resolve Γ v).subst θ) :
    resolve (Var.scope bs Γ') v =
      (resolve (Var.scope bs Γ) v).subst fun w => (θ w).lift bs.length 0 := by
  by_cases hname : v.name ∈ Var.names bs
  · obtain ⟨k, -, -, hresolve⟩ := resolve_scope_of_mem hname
    rw [hresolve, hresolve]
    rfl
  · rw [resolve_scope_of_not_mem Γ hname, resolve_scope_of_not_mem Γ' hname, h hname,
      subst_resolve_lift]

theorem lift_resolve_lift (Γ : List String) (v : Var) (n c m : Nat) :
    ((resolve Γ v).lift n c).lift m 0 = ((resolve Γ v).lift m 0).lift n (c + m) := by
  rcases resolve_cases Γ v with h | ⟨k, h⟩
  · rw [h]
    rfl
  · rw [h]
    simp only [lift_bound, Nat.not_lt_zero, if_false]
    congr 1
    split <;> split <;> omega

/-- Scopes that agree except for a lift do so below more binders. -/
theorem resolve_scope_lift {n c : Nat}
    (h : v.name ∉ Var.names bs → resolve Γ' v = (resolve Γ v).lift n c) :
    resolve (Var.scope bs Γ') v = (resolve (Var.scope bs Γ) v).lift n (c + bs.length) := by
  by_cases hname : v.name ∈ Var.names bs
  · obtain ⟨k, hk, -, hresolve⟩ := resolve_scope_of_mem hname
    rw [hresolve, hresolve, lift_bound, if_pos (by omega)]
  · rw [resolve_scope_of_not_mem Γ hname, resolve_scope_of_not_mem Γ' hname, h hname,
      lift_resolve_lift]

end Nameless

/-! ## Change of scope -/

namespace Expr
open Nameless (resolve)

/-- If the free variables refer to what they referred to, except for a lift, then the expressions
are the same except for the lift. -/
theorem nameless_lift {e : Expr} {Γ Γ' : List String} {n c : Nat}
    (h : ∀ v ∈ e.free, resolve Γ' v = (resolve Γ v).lift n c) :
    e.nameless Γ' = (e.nameless Γ).lift n c := by
  induction e generalizing Γ Γ' c with
  | bool b | int k => rfl
  | var v => exact h v (by simp)
  | unary op e ih => exact congrArg (Nameless.unary op) (ih fun v hv => h v (by simpa using hv))
  | binary op l r hl hr =>
    exact congrArg₂ (Nameless.binary op) (hl fun v hv => h v (by simp [hv]))
      (hr fun v hv => h v (by simp [hv]))
  | select a i ha hi =>
    exact congrArg₂ Nameless.select (ha fun v hv => h v (by simp [hv]))
      (hi fun v hv => h v (by simp [hv]))
  | length a ih => exact congrArg Nameless.length (ih fun v hv => h v (by simpa using hv))
  | update a i x l ha hi hx hl =>
    show Nameless.update _ _ _ _ = .update _ _ _ _
    rw [ha fun v hv => h v (by simp [hv]), hi fun v hv => h v (by simp [hv]),
      hx fun v hv => h v (by simp [hv]),
      hl fun v hv => h v (by simp [hv])]
  | apply p es ih =>
    refine congrArg (Nameless.apply p) ?_
    rw [namelessAll_eq_map, namelessAll_eq_map, Nameless.liftAll_eq_map, List.map_map]
    exact List.map_congr_left fun e he => ih e he fun v hv =>
      h v ((mem_free_apply p es).2 ⟨e, he, hv⟩)
  | quant q bs e ih =>
    refine congrArg (Nameless.quant q (bs.map Var.ty)) (ih fun v hv => ?_)
    rw [List.length_map]
    exact Nameless.resolve_scope_lift fun hname => h v ((mem_free_quant q bs e).2 ⟨hv, hname⟩)

/-- Below binders that hide none of its free variables an expression is lifted. -/
theorem nameless_scope {e : Expr} {bs : List Var} (Γ : List String)
    (h : ∀ v ∈ e.free, v.name ∉ Var.names bs) :
    e.nameless (Var.scope bs Γ) = (e.nameless Γ).lift bs.length 0 :=
  nameless_lift fun v hv => Nameless.resolve_scope_of_not_mem Γ (h v hv)

theorem subst_nil (e : Expr) : e.subst [] = e := by
  induction e with
  | bool b => exact subst_bool [] b
  | int k => exact subst_int [] k
  | var v => rfl
  | unary op e ih => rw [subst_unary, ih]
  | binary op l r hl hr => rw [subst_binary, hl, hr]
  | select a i ha hi => rw [subst_select, ha, hi]
  | length a ih => rw [subst_length, ih]
  | update a i v l ha hi hv hl => rw [subst_update, ha, hi, hv, hl]
  | apply p es ih => rw [subst_apply, List.map_congr_left ih, List.map_id']
  | quant q bs e ih => exact (subst_quant [] q bs e).trans (if_pos rfl)

/-! ## The two passes below binders -/

section Passes
variable {s : Subst} {bs : List Var} {e : Expr}
  (hbinds : ∀ v ∈ e.free, v.name ∈ Var.names bs → Var.Binds bs v)
include hbinds

/-- The first pass: a binder is found under its new name, and what is not bound stays. -/
theorem nameless_freshened (Γ : List String) {v : Var} (hv : v ∈ e.free) :
    ((s.freshened bs e).2.image v).nameless (Var.scope (s.freshened bs e).1 Γ) =
      resolve (Var.scope bs Γ) v := by
  have hlength := s.length_freshened bs e
  by_cases hname : v.name ∈ Var.names bs
  · obtain ⟨f, hf, hbf, hlookup⟩ := s.freshened_binds bs e (hbinds v hv hname)
    obtain ⟨k, -, hk, hresolve⟩ := Nameless.resolve_scope_of_mem hname
    obtain ⟨k', -, hk', hresolve'⟩ := Nameless.resolve_scope_of_mem (name_mem_names hbf.mem)
    rw [hlength, hlookup _ (by simp), hk] at hk'
    cases hk'
    rw [hf, hresolve]
    exact hresolve' Γ
  · rw [s.freshened_image_of_not_mem bs e hname,
      Nameless.resolve_scope_of_not_mem Γ hname, ← hlength]
    exact Nameless.resolve_scope_of_not_mem Γ (s.name_not_mem_freshened bs e hv hname)

/-- The second pass: no new binder captures a variable of a replacement. -/
theorem nameless_live {Γ Γ' : List String} {θ : Var → Nameless} (he : e.Scoped)
    (h : ∀ v ∈ e.free, v.name ∉ Var.names bs → (s.image v).nameless Γ' = (resolve Γ v).subst θ)
    {u : Var} (hu : u ∈ (e.subst (s.freshened bs e).2).free) :
    ((s.live bs e.free).image u).nameless (Var.scope (s.freshened bs e).1 Γ') =
      (resolve (Var.scope (s.freshened bs e).1 Γ) u).subst fun v =>
        (θ v).lift (s.freshened bs e).1.length 0 := by
  obtain ⟨v, hv, hvu⟩ := (mem_free_subst _ he).1 hu
  by_cases hname : v.name ∈ Var.names bs
  · obtain ⟨f, hf, hbf, -⟩ := s.freshened_binds bs e (hbinds v hv hname)
    rw [hf, mem_free_var] at hvu
    subst hvu
    have hu := name_mem_names hbf.mem
    obtain ⟨k, -, -, hresolve⟩ := Nameless.resolve_scope_of_mem hu
    rw [s.image_live_of_freshened bs e hu, hresolve]
    exact hresolve Γ'
  · rw [s.freshened_image_of_not_mem bs e hname, mem_free_var] at hvu
    subst hvu
    rw [s.image_live bs e hv hname, nameless_scope Γ' fun w hw => s.image_name_not_mem_freshened bs
      e hv hname hw, Nameless.resolve_scope_of_not_mem Γ (s.name_not_mem_freshened bs e hv hname),
      h u hv hname, Nameless.subst_resolve_lift]

end Passes

/-- The free variables become what the nameless substitution makes of what they refer to, and so
does the expression. -/
theorem nameless_substTo {n : Nat} {s : Subst} {e : Expr} {Γ Γ' : List String}
    {θ : Var → Nameless} (hn : e.depth ≤ n) (he : e.Scoped)
    (h : ∀ v ∈ e.free, (s.image v).nameless Γ' = (resolve Γ v).subst θ) :
    (e.subst s).nameless Γ' = (e.nameless Γ).subst θ := by
  induction n generalizing s e Γ Γ' θ with
  | zero => cases e <;> simp [depth] at hn
  | succ n ih =>
    cases e with
    | bool b => rw [subst_bool]; rfl
    | int k => rw [subst_int]; rfl
    | var v => exact h v (by simp)
    | unary op e =>
      simp only [depth] at hn
      rw [subst_unary]
      exact congrArg (Nameless.unary op) (ih (e := e) (by omega) he fun v hv =>
        h v (by simpa using hv))
    | binary op l r =>
      simp only [depth] at hn
      rw [subst_binary]
      exact congrArg₂ (Nameless.binary op) (ih (e := l) (by omega) he.1 fun v hv =>
        h v (by simp [hv])) (ih (e := r) (by omega) he.2 fun v hv => h v (by simp [hv]))
    | select a i =>
      simp only [depth] at hn
      rw [subst_select]
      exact congrArg₂ Nameless.select (ih (e := a) (by omega) he.1 fun v hv => h v (by simp [hv]))
        (ih (e := i) (by omega) he.2 fun v hv => h v (by simp [hv]))
    | length a =>
      simp only [depth] at hn
      rw [subst_length]
      exact congrArg Nameless.length (ih (e := a) (by omega) he fun v hv => h v (by simpa using hv))
    | update a i x l =>
      simp only [depth] at hn
      rw [subst_update]
      show Nameless.update _ _ _ _ = .update _ _ _ _
      rw [ih (e := a) (by omega) he.1 fun v hv => h v (by simp [hv]),
        ih (e := i) (by omega) he.2.1 fun v hv => h v (by simp [hv]),
        ih (e := x) (by omega) he.2.2.1 fun v hv => h v (by simp [hv]),
        ih (e := l) (by omega) he.2.2.2 fun v hv => h v (by simp [hv])]
    | apply p es =>
      simp only [depth] at hn
      rw [subst_apply]
      refine congrArg (Nameless.apply p) ?_
      rw [namelessAll_eq_map, namelessAll_eq_map, Nameless.substAll_eq_map, List.map_map,
        List.map_map]
      refine List.map_congr_left fun e hmem => ?_
      have := depth_le_depths hmem
      exact ih (by omega) (scopedAll_iff.1 he e hmem) fun v hv =>
        h v ((mem_free_apply p es).2 ⟨e, hmem, hv⟩)
    | quant q bs e =>
      simp only [depth] at hn
      obtain ⟨hscope, hbinds⟩ := he
      simp only [mem_free_quant, and_imp] at h
      -- where nothing is replaced, only the scopes change
      have hsame : ∀ {Δ Δ' : List String} {θ : Var → Nameless},
          (∀ v ∈ e.free, resolve Δ' v = (resolve Δ v).subst θ) →
          e.nameless Δ' = (e.nameless Δ).subst θ := by
        intro Δ Δ' θ hΔ
        have := ih (s := []) (by omega) hscope hΔ
        rwa [subst_nil] at this
      rw [subst_quant]
      split
      · next hempty =>
        refine congrArg (Nameless.quant q (bs.map Var.ty)) (hsame fun v hv => ?_)
        rw [List.length_map]
        refine Nameless.resolve_scope_subst fun hname => ?_
        have hv' := h v hv hname
        rwa [s.image_of_live_isEmpty bs e hempty hv hname] at hv'
      · have hren := s.freshened_isRenaming bs e
        have hdepth := depth_subst hren e
        have hfirst : (e.subst (s.freshened bs e).2).nameless (Var.scope (s.freshened bs e).1 Γ) =
            (e.nameless (Var.scope bs Γ)).subst .free :=
          ih (by omega) hscope fun v hv =>
            (nameless_freshened hbinds Γ hv).trans (Nameless.resolve_subst_free _ v).symm
        have hsecond :=
          ih (s := s.live bs e.free) (by omega) (hscope.subst fun v _ => hren.scoped_image v)
          fun u hu => nameless_live hbinds hscope h hu
        rw [hfirst, ← hsame fun v _ => (Nameless.resolve_subst_free _ v).symm,
          s.length_freshened bs e] at hsecond
        show Nameless.quant q _ _ = .quant q _ _
        rw [s.freshened_map_ty bs e, hsecond, List.length_map]

end Expr

/-- **Substitution avoids capture**: if below a binder every occurrence of its name has the sort of
the innermost such binder, then the nameless form of a substitution is the simultaneous
substitution, in the nameless form of the expression, of the nameless forms of the replacements. -/
theorem nameless_subst {e : Expr} (he : e.Scoped) (s : Subst) :
    (e.subst s).nameless [] = (e.nameless []).subst s.nameless :=
  Expr.nameless_substTo (Nat.le_refl _) he fun v _ => (s.nameless_eq_image v).symm

namespace Clash

def i : Var := ⟨"i", .int⟩

def i₀ : Var := ⟨"i$0", .int⟩

def y : Var := ⟨"y", .int⟩

def z : Var := ⟨"z", .int⟩

/-- Both binders clash with the replacements, and the inner one uses the name of the outer one at
another sort. -/
def formula : Expr :=
  .quant .all [i] (.and (.binary .lt (.var i) (.var y))
    (.quant .ex [i₀, ⟨"i", .bool⟩] (.and (.var ⟨"i", .bool⟩) (.binary .eq (.var i₀) (.var z)))))

def replacements : Subst :=
  [(y, .binary .add (.var i) (.var i₀)), (z, .binary .sub (.var i) (.var y))]

theorem formula_scoped : formula.Scoped := by
  refine ⟨⟨⟨trivial, trivial⟩, ⟨trivial, trivial, trivial⟩, ?_⟩, ?_⟩
  · unfold Var.Binds
    decide
  · unfold Var.Binds
    decide

end Clash

/-- No binder captures the variables that come below it, and the `y` that comes with the replacement
for `z` is not replaced in its turn. -/
theorem nameless_subst_clash :
    Clash.formula.Scoped ∧
    (Clash.formula.subst Clash.replacements).nameless [] = .quant .all [.int]
      (.binary .and (.binary .lt (.bound 0) (.binary .add (.free Clash.i) (.free Clash.i₀)))
        (.quant .ex [.int, .bool] (.binary .and (.bound 0)
          (.binary .eq (.bound 1) (.binary .sub (.free Clash.i) (.free Clash.y)))))) :=
  ⟨Clash.formula_scoped, nameless_subst Clash.formula_scoped Clash.replacements⟩

end Cutpoint
