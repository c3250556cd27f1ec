import Cutpoint.Expr.Typing

/-!
# Free variables, binders and sorts of names

* `Expr.induct`: induction over expressions, with a hypothesis for every argument of a predicate;
* `Expr.mem_free_…`: the free variables of each form of expression;
* `Expr.vars`: all variables of an expression, and `OneType`, that a list of variables uses each
  name at one sort;
* `Var.lookup vs as x`: what stands beside the last variable named `x`; `Var.Binds bs v`: the last
  of the binders `bs` named like `v` is `v` itself;
* `Expr.Scoped`: below a binder every occurrence of its name has the sort of the innermost such
  binder. It holds where each name is used at one sort (`OneType.scoped`), and unlike that it
  survives substitution.
-/

set_option autoImplicit false

namespace Cutpoint

/-! ## Induction over expressions -/

namespace Expr

@[induction_eliminator]
theorem induct {P : Expr → Prop} (bool : ∀ b, P (bool b)) (int : ∀ n, P (int n))
    (var : ∀ v, P (var v)) (unary : ∀ op e, P e → P (unary op e))
    (binary : ∀ op l r, P l → P r → P (binary op l r)) (select : ∀ a i, P a → P i → P (select a i))
    (length : ∀ a, P a → P (length a))
    (update : ∀ a i v l, P a → P i → P v → P l → P (update a i v l))
    (apply : ∀ p es, (∀ e ∈ es, P e) → P (apply p es)) (quant : ∀ q bs e, P e → P (quant q bs e))
    (e : Expr) : P e :=
  @Expr.rec P (fun es => ∀ e ∈ es, P e) bool int var unary binary select length update apply quant
    (fun _ h => absurd h List.not_mem_nil)
    (fun _ _ h hs _ hm => (List.mem_cons.1 hm).elim (fun he => he ▸ h) (hs _)) e

end Expr

/-! ## Free variables -/

theorem mem_names {vs : List Var} {x : String} : x ∈ Var.names vs ↔ ∃ v ∈ vs, v.name = x := by
  simp [Var.names]

theorem name_mem_names {vs : List Var} {v : Var} (h : v ∈ vs) : v.name ∈ Var.names vs :=
  mem_names.2 ⟨v, h, rfl⟩

namespace Expr

theorem mem_collectFree (v : Var) (e : Expr) :
    ∀ (hidden : List String) (acc : List Var),
      v ∈ e.collectFree hidden acc ↔ v ∈ acc ∨ (v ∈ e.free ∧ v.name ∉ hidden) := by
  unfold free
  induction e with
  | bool b | int n => simp [collectFree]
  | var w =>
    intro hidden acc
    simp only [collectFree, List.contains_iff_mem, List.not_mem_nil, if_false, mem_insertBy]
    by_cases h : w.name ∈ hidden
    · rw [if_pos h]
      grind
    · rw [if_neg h, mem_insertBy]
      grind
  | unary op e ih | length e ih => simpa only [collectFree] using ih
  | binary op l r hl hr | select l r hl hr =>
    intro hidden acc
    simp only [collectFree]
    rw [hr, hl, hr [] (collectFree [] l [])]
    grind
  | update a i w l ha hi hw hl =>
    intro hidden acc
    simp only [collectFree]
    rw [hl, hw, hi, ha, hl [] (collectFree [] w _), hw [] (collectFree [] i _),
      hi [] (collectFree [] a [])]
    grind
  | apply p es ih =>
    simp only [collectFree]
    induction es with
    | nil => simp [collectFrees]
    | cons e es ihs =>
      intro hidden acc
      have he := ih e List.mem_cons_self
      have hes := ihs fun e' h => ih e' (List.mem_cons_of_mem _ h)
      simp only [collectFrees]
      rw [hes, he, hes [] (collectFree [] e [])]
      grind
  | quant q bs e ih =>
    intro hidden acc
    simp only [collectFree]
    rw [ih, ih (Var.names bs ++ [])]
    grind

section Membership
variable {v w : Var}

@[simp, grind .] theorem mem_free_bool (b : Bool) : ¬ v ∈ (bool b).free := List.not_mem_nil

@[simp, grind .] theorem mem_free_int (n : Int) : ¬ v ∈ (int n).free := List.not_mem_nil

@[simp, grind =] theorem mem_free_var : v ∈ (var w).free ↔ v = w := List.mem_singleton

@[simp, grind =] theorem mem_free_unary (op : UnOp) (e : Expr) :
    v ∈ (unary op e).free ↔ v ∈ e.free := Iff.rfl

@[simp, grind =] theorem mem_free_binary (op : BinOp) (l r : Expr) :
    v ∈ (binary op l r).free ↔ v ∈ l.free ∨ v ∈ r.free := by
  show v ∈ r.collectFree [] l.free ↔ _
  rw [mem_collectFree]
  simp

@[simp, grind =] theorem mem_free_select (a i : Expr) :
    v ∈ (select a i).free ↔ v ∈ a.free ∨ v ∈ i.free := by
  show v ∈ i.collectFree [] a.free ↔ _
  rw [mem_collectFree]
  simp

@[simp, grind =] theorem mem_free_length (a : Expr) : v ∈ (length a).free ↔ v ∈ a.free := Iff.rfl

@[simp, grind =] theorem mem_free_update (a i e l : Expr) :
    v ∈ (update a i e l).free ↔ v ∈ a.free ∨ v ∈ i.free ∨ v ∈ e.free ∨ v ∈ l.free := by
  show v ∈ l.collectFree [] (e.collectFree [] (i.collectFree [] a.free)) ↔ _
  rw [mem_collectFree, mem_collectFree, mem_collectFree]
  simp [or_assoc]

@[simp, grind =] theorem mem_free_apply (p : String) (es : List Expr) :
    v ∈ (apply p es).free ↔ ∃ e ∈ es, v ∈ e.free := by
  have general : ∀ acc, v ∈ collectFrees [] es acc ↔ v ∈ acc ∨ ∃ e ∈ es, v ∈ e.free := by
    induction es with
    | nil => intro acc; exact (or_iff_left (by simp)).symm
    | cons e es ih =>
      intro acc
      show v ∈ collectFrees [] es (e.collectFree [] acc) ↔ _
      rw [ih, mem_collectFree]
      simp [or_assoc]
  exact (general []).trans (by simp)

@[simp, grind =] theorem mem_free_quant (q : Quantifier) (bs : List Var) (e : Expr) :
    v ∈ (quant q bs e).free ↔ v ∈ e.free ∧ v.name ∉ Var.names bs := by
  show v ∈ e.collectFree (Var.names bs ++ []) [] ↔ _
  rw [mem_collectFree]
  simp

@[simp, grind =] theorem mem_free_conj (es : List Expr) :
    v ∈ (conj es).free ↔ ∃ e ∈ es, v ∈ e.free := by
  cases es with
  | nil => simp [conj, tt]
  | cons a es =>
    rw [conj]
    induction es generalizing a with
    | nil => simp
    | cons e es ih =>
      rw [List.foldl_cons, ih, Expr.and]
      simp [or_assoc]

end Membership

theorem mem_freeNames {e : Expr} {x : String} : x ∈ e.freeNames ↔ ∃ v ∈ e.free, v.name = x := by
  have general : ∀ (names acc : List String),
      x ∈ names.foldl (fun names n => insertBy (fun a b => decide (a < b)) n names) acc ↔ x ∈ acc ∨
      x ∈ names := by
    intro names
    induction names with
    | nil => simp
    | cons n names ih =>
      intro acc
      rw [List.foldl_cons, ih, mem_insertBy]
      grind
  rw [freeNames, general, ← mem_names]
  simp

/-! ## All variables -/

mutual

/-- All variables of an expression, those of binders included. -/
def vars : Expr → List Var
  | bool _ | int _ => []
  | var v => [v]
  | unary _ e => e.vars
  | binary _ l r => l.vars ++ r.vars
  | select a i => a.vars ++ i.vars
  | length a => a.vars
  | update a i v l => a.vars ++ i.vars ++ v.vars ++ l.vars
  | apply _ es => varsAll es
  | quant _ bs e => bs ++ e.vars

def varsAll : List Expr → List Var
  | [] => []
  | e :: es => e.vars ++ varsAll es

end

theorem mem_varsAll {es : List Expr} {v : Var} : v ∈ varsAll es ↔ ∃ e ∈ es, v ∈ e.vars := by
  induction es with
  | nil => simp [varsAll]
  | cons e es ih => simp [varsAll, ih]

theorem mem_vars_of_mem_free {e : Expr} {v : Var} (h : v ∈ e.free) : v ∈ e.vars := by
  induction e with
  | bool b | int n => simp at h
  | var w => simpa [vars] using h
  | unary op e ih | length e ih => exact ih (by simpa using h)
  | binary op l r hl hr | select l r hl hr => simp only [vars, List.mem_append]; grind
  | update a i w l ha hi hw hl => simp only [vars, List.mem_append]; grind
  | apply p es ih =>
    obtain ⟨e, he, hv⟩ := (mem_free_apply p es).1 h
    exact mem_varsAll.2 ⟨e, he, ih e he hv⟩
  | quant q bs e ih => exact List.mem_append_right _ (ih ((mem_free_quant q bs e).1 h).1)

end Expr

/-- Each name is used at one sort: variables of the same name are the same. -/
def OneType (vs : List Var) : Prop := ∀ v ∈ vs, ∀ w ∈ vs, v.name = w.name → v = w

theorem OneType.mono {vs ws : List Var} (h : OneType ws) (hs : ∀ v ∈ vs, v ∈ ws) : OneType vs :=
  fun v hv w hw => h v (hs v hv) w (hs w hw)

theorem OneType.append {vs ws : List Var} (hvs : OneType vs) (hws : OneType ws)
    (h : ∀ v ∈ vs, ∀ w ∈ ws, v.name ≠ w.name) : OneType (vs ++ ws) := by
  intro v hv w hw hname
  rcases List.mem_append.1 hv with hv | hv <;> rcases List.mem_append.1 hw with hw | hw
  · exact hvs v hv w hw hname
  · exact absurd hname (h v hv w hw)
  · exact absurd hname.symm (h w hw v hv)
  · exact hws v hv w hw hname

instance (vs : List Var) : Decidable (OneType vs) :=
  inferInstanceAs (Decidable (∀ v ∈ vs, ∀ w ∈ vs, v.name = w.name → v = w))

/-! ## Scopes -/

namespace Var

/-- What stands beside the last variable of the given name. -/
def lookup {α : Type} : List Var → List α → String → Option α
  | v :: vs, a :: as, x => (lookup vs as x).or (if v.name = x then some a else none)
  | _, _, _ => none

section Lookup
variable {α : Type}

@[simp] theorem lookup_nil (as : List α) (x : String) : lookup [] as x = none := by cases as <;> rfl

@[simp] theorem lookup_cons (v : Var) (vs : List Var) (a : α) (as : List α) (x : String) :
    lookup (v :: vs) (a :: as) x = (lookup vs as x).or (if v.name = x then some a else none) := rfl

theorem lookup_eq_none {vs : List Var} (as : List α) {x : String} (h : x ∉ names vs) :
    lookup vs as x = none := by
  induction vs generalizing as with
  | nil => simp
  | cons v vs ih =>
    cases as with
    | nil => rfl
    | cons a as =>
      simp only [names, List.map_cons, List.mem_cons, not_or] at h
      rw [lookup_cons, ih as h.2, Option.none_or, if_neg (Ne.symm h.1)]

theorem lookup_isSome {vs : List Var} {as : List α} (hlen : vs.length ≤ as.length) {x : String}
    (h : x ∈ names vs) : (lookup vs as x).isSome := by
  induction vs generalizing as with
  | nil => simp [names] at h
  | cons v vs ih =>
    cases as with
    | nil => simp at hlen
    | cons a as =>
      simp only [names, List.map_cons, List.mem_cons] at h
      rw [lookup_cons, Option.isSome_or]
      rcases h with rfl | h
      · simp
      · simp [ih (by simpa using hlen) h]

theorem lookup_map {β : Type} (f : α → β) (vs : List Var) (as : List α) (x : String) :
    lookup vs (as.map f) x = (lookup vs as x).map f := by
  induction vs generalizing as with
  | nil => simp
  | cons v vs ih =>
    cases as with
    | nil => rfl
    | cons a as =>
      rw [List.map_cons, lookup_cons, lookup_cons, ih, Option.map_or]
      congr 1
      split <;> rfl

theorem mem_of_lookup {vs : List Var} {as : List α} {x : String} {a : α}
    (h : lookup vs as x = some a) : a ∈ as := by
  induction vs generalizing as with
  | nil => simp at h
  | cons v vs ih =>
    cases as with
    | nil => cases h
    | cons b as =>
      rw [lookup_cons, Option.or_eq_some_iff] at h
      rcases h with h | ⟨-, h⟩
      · exact List.mem_cons_of_mem _ (ih h)
      · split at h
        · exact Option.some.inj h ▸ List.mem_cons_self
        · cases h

end Lookup

/-- Every name of a list of variables refers to one of them. -/
theorem exists_lookup_self {vs : List Var} {x : String} (h : x ∈ names vs) :
    ∃ v, lookup vs vs x = some v ∧ v.name = x := by
  induction vs with
  | nil => simp [names] at h
  | cons v vs ih =>
    rw [lookup_cons]
    by_cases hx : x ∈ names vs
    · obtain ⟨w, hw, hname⟩ := ih hx
      exact ⟨w, by rw [hw, Option.some_or], hname⟩
    · have hv : v.name = x := ((List.mem_cons.1 h).resolve_right hx).symm
      exact ⟨v, by rw [lookup_eq_none vs hx, Option.none_or, if_pos hv], hv⟩

/-- Of the variables `bs`, the last one named like `v` is `v`, so that below the binders `bs` this
name refers to `v`. -/
def Binds (bs : List Var) (v : Var) : Prop := lookup bs bs v.name = some v

theorem Binds.mem {bs : List Var} {v : Var} (h : Binds bs v) : v ∈ bs := mem_of_lookup h

theorem binds_cons {b v : Var} {bs : List Var} :
    Binds (b :: bs) v ↔ Binds bs v ∨ (v = b ∧ v.name ∉ names bs) := by
  unfold Binds
  rw [lookup_cons, Option.or_eq_some_iff]
  refine or_congr_right
    ⟨fun ⟨hn, hb⟩ => ?_, fun ⟨hv, hn⟩ => ⟨lookup_eq_none bs hn, by rw [hv, if_pos rfl]⟩⟩
  split at hb
  · refine ⟨(Option.some.inj hb).symm, fun h => ?_⟩
    have := lookup_isSome (Nat.le_refl _) h
    rw [hn] at this
    cases this
  · cases hb

end Var

theorem OneType.binds {bs : List Var} (h : OneType bs) {v : Var} (hv : v ∈ bs) :
    Var.Binds bs v := by
  obtain ⟨w, hw, hname⟩ := Var.exists_lookup_self (name_mem_names hv)
  rw [Var.Binds, hw, h w (Var.mem_of_lookup hw) v hv hname]

namespace Expr

mutual

/-- Below a binder every occurrence of its name has the sort of the innermost binder of that
name. -/
def Scoped : Expr → Prop
  | bool _ | int _ | var _ => True
  | unary _ e => e.Scoped
  | binary _ l r => l.Scoped ∧ r.Scoped
  | select a i => a.Scoped ∧ i.Scoped
  | length a => a.Scoped
  | update a i v l => a.Scoped ∧ i.Scoped ∧ v.Scoped ∧ l.Scoped
  | apply _ es => ScopedAll es
  | quant _ bs e => e.Scoped ∧ ∀ v ∈ e.free, v.name ∈ Var.names bs → Var.Binds bs v

def ScopedAll : List Expr → Prop
  | [] => True
  | e :: es => e.Scoped ∧ ScopedAll es

end

theorem scopedAll_iff {es : List Expr} : ScopedAll es ↔ ∀ e ∈ es, e.Scoped := by
  induction es with
  | nil => simp [ScopedAll]
  | cons e es ih => simp [ScopedAll, ih]

end Expr

theorem OneType.scoped {e : Expr} (h : OneType e.vars) : e.Scoped := by
  induction e with
  | bool b | int n | var v => trivial
  | unary op e ih | length e ih => exact ih h
  | binary op l r hl hr | select l r hl hr =>
    exact ⟨hl (h.mono fun _ => List.mem_append_left _),
      hr (h.mono fun _ => List.mem_append_right _)⟩
  | update a i v l ha hi hv hl =>
    simp only [Expr.vars, List.append_assoc] at h
    refine ⟨ha (h.mono ?_), hi (h.mono ?_), hv (h.mono ?_), hl (h.mono ?_)⟩ <;> grind
  | apply p es ih =>
    exact Expr.scopedAll_iff.2 fun e he =>
      ih e he (h.mono fun v hv => Expr.mem_varsAll.2 ⟨e, he, hv⟩)
  | quant q bs e ih =>
    refine ⟨ih (h.mono fun _ => List.mem_append_right _), fun v hv hn => ?_⟩
    obtain ⟨b, hb, hname⟩ := mem_names.1 hn
    have hbv : b = v :=
      h b (List.mem_append_left _ hb) v
        (List.mem_append_right _ (Expr.mem_vars_of_mem_free hv)) hname
    exact hbv ▸ OneType.binds (h.mono fun _ => List.mem_append_left _) hb

end Cutpoint
