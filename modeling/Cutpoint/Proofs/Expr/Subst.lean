import Cutpoint.Expr.Subst
import Cutpoint.Proofs.Expr.Fresh

/-!
# Laws of substitution

* `Expr.depth_subst`: variables for variables keep the depth, so the depth of an expression is
  enough for both passes;
* `Expr.subst_var`, …, `Expr.subst_quant`: substitution form by form, with no bound on the depth in
  sight;
* `freshen_…`: renamed binders keep their sorts and their order, and have names that are not
  avoided;
* `Expr.mem_free_subst`: the free variables of a substitution; `Expr.Scoped.subst`: it keeps scopes.
-/

set_option autoImplicit false

namespace Cutpoint

/-! ## Lookup -/

namespace Subst

@[simp] theorem find?_nil (v : Var) : find? [] v = none := rfl

theorem find?_cons (p : Var × Expr) (s : Subst) (v : Var) :
    find? (p :: s) v = if p.1 = v then some p.2 else find? s v := by
  simp only [find?, List.find?_cons]
  by_cases h : p.1 = v <;> simp [h]

theorem mem_of_find? {s : Subst} {v : Var} {r : Expr} (h : s.find? v = some r) : (v, r) ∈ s := by
  simp only [find?, Option.map_eq_some_iff] at h
  obtain ⟨p, hp, rfl⟩ := h
  have hv : p.1 = v := by simpa using List.find?_some hp
  exact hv ▸ List.mem_of_find?_eq_some hp

theorem find?_filter (s : Subst) (k : Var → Bool) (v : Var) :
    find? (s.filter fun p => k p.1) v = if k v then s.find? v else none := by
  induction s with
  | nil => simp
  | cons p s ih =>
    rw [List.filter_cons]
    by_cases hk : k p.1
    · rw [if_pos hk, find?_cons, find?_cons, ih]
      by_cases hv : p.1 = v
      · simp [← hv, hk]
      · simp [hv]
    · rw [if_neg hk, find?_cons, ih]
      by_cases hv : p.1 = v
      · simp [← hv, hk]
      · simp [hv]

theorem find?_insert (s : Subst) (v w : Var) (e : Expr) :
    (s.insert v e).find? w = if v = w then some e else s.find? w := by
  rw [insert, find?_cons]
  have hf := find?_filter s (fun u => decide (u ≠ v)) w
  by_cases h : v = w
  · simp [h]
  · rw [if_neg h, if_neg h, hf, if_pos (by simpa using Ne.symm h)]

/-- Of pairs for the same variable the last one counts. -/
theorem find?_foldl_insert (s : Subst) {vs : List Var} {es : List Expr}
    (hlen : es.length = vs.length) {v : Var} (h : ∀ w ∈ vs, w.name = v.name → w = v) :
    find? ((vs.zip es).foldl (fun s p => s.insert p.1 p.2) s) v =
      (Var.lookup vs es v.name).or (s.find? v) := by
  induction vs generalizing s es with
  | nil => simp
  | cons w vs ih =>
    obtain ⟨e, es, rfl⟩ := List.exists_cons_of_length_eq_add_one hlen
    have hw : w.name = v.name ↔ w = v := ⟨h w List.mem_cons_self, fun he => by rw [he]⟩
    rw [List.zip_cons_cons, List.foldl_cons,
      ih (s.insert w e) (by simpa using hlen) fun u hu => h u (List.mem_cons_of_mem _ hu),
      find?_insert,
      Var.lookup_cons, Option.or_assoc]
    by_cases he : w = v
    · simp [he]
    · simp [he, hw]

theorem find?_ofPairs {vs : List Var} {es : List Expr} (hlen : es.length = vs.length)
    {v : Var} (h : ∀ w ∈ vs, w.name = v.name → w = v) :
    (ofPairs (vs.zip es)).find? v = Var.lookup vs es v.name := by
  rw [ofPairs, find?_foldl_insert [] hlen h, find?_nil, Option.or_none]

theorem find?_append (s t : Subst) (v : Var) : find? (s ++ t) v = (s.find? v).or (t.find? v) := by
  induction s with
  | nil => simp
  | cons p s ih =>
    rw [List.cons_append, find?_cons, find?_cons, ih]
    split <;> simp

theorem find?_insertNew (s : Subst) (v w : Var) (e : Expr) :
    (s.insertNew v e).find? w = (s.find? w).or (if v = w then some e else none) := by
  unfold insertNew
  split
  · next h =>
    by_cases hv : v = w
    · obtain ⟨r, hr⟩ := Option.isSome_iff_exists.1 h
      simp [← hv, hr]
    · simp [hv]
  · rw [find?_append, find?_cons, find?_nil]

theorem find?_live (s : Subst) (bs fr : List Var) (v : Var) :
    (s.live bs fr).find? v = if v.name ∉ Var.names bs ∧ v ∈ fr then s.find? v else none := by
  have h := find?_filter s (fun u => !(Var.names bs).contains u.name && fr.contains u) v
  rw [live, h]
  simp

theorem find?_live_eq_some {s : Subst} {bs fr : List Var} {v : Var} {r : Expr} :
    (s.live bs fr).find? v = some r ↔ v.name ∉ Var.names bs ∧ v ∈ fr ∧ s.find? v = some r := by
  rw [find?_live]
  split <;> grind

theorem mem_imageNames {s : Subst} {v : Var} {r : Expr} (h : s.find? v = some r) {w : Var}
    (hw : w ∈ r.free) : w.name ∈ s.imageNames :=
  List.mem_flatMap.2 ⟨(v, r), mem_of_find? h, Expr.mem_freeNames.2 ⟨w, hw, rfl⟩⟩

def image (s : Subst) (v : Var) : Expr := (s.find? v).getD (.var v)

theorem image_of_find?_eq_some {s : Subst} {v : Var} {r : Expr} (h : s.find? v = some r) :
    s.image v = r := by
  rw [image, h, Option.getD_some]

theorem image_of_find?_eq_none {s : Subst} {v : Var} (h : s.find? v = none) :
    s.image v = .var v := by
  rw [image, h, Option.getD_none]

def IsRenaming (s : Subst) : Prop := ∀ v r, s.find? v = some r → ∃ w, r = Expr.var w

theorem IsRenaming.scoped_image {s : Subst} (h : s.IsRenaming) (v : Var) : (s.image v).Scoped := by
  cases hf : s.find? v with
  | none => rw [image_of_find?_eq_none hf]; trivial
  | some r =>
    obtain ⟨w, rfl⟩ := h v r hf
    rw [image_of_find?_eq_some hf]
    trivial

theorem IsRenaming.live {s : Subst} (h : s.IsRenaming) (bs fr : List Var) :
    (s.live bs fr).IsRenaming :=
  fun v r hr => h v r (find?_live_eq_some.1 hr).2.2

end Subst

/-! ## Renamed binders -/

section Freshen
variable (clash : List String)

theorem freshen_nil (avoid : List String) : freshen clash avoid [] = ([], []) := rfl

theorem freshen_cons_of_mem {b : Var} (h : b.name ∈ clash) (avoid : List String) (bs : List Var) :
    freshen clash avoid (b :: bs) =
      (b.fresh avoid :: (freshen clash ((b.fresh avoid).name :: avoid) bs).1,
        (freshen clash ((b.fresh avoid).name :: avoid) bs).2.insertNew b
          (.var (b.fresh avoid))) := by
  rw [freshen, if_pos (by simpa using h)]

theorem freshen_cons_of_not_mem {b : Var} (h : b.name ∉ clash) (avoid : List String)
    (bs : List Var) :
    freshen clash avoid (b :: bs) =
      (b :: (freshen clash avoid bs).1, (freshen clash avoid bs).2) := by
  rw [freshen, if_neg (by simpa using h)]

theorem freshen_map_ty (avoid : List String) (bs : List Var) :
    (freshen clash avoid bs).1.map Var.ty = bs.map Var.ty := by
  induction bs generalizing avoid with
  | nil => rfl
  | cons b bs ih =>
    by_cases h : b.name ∈ clash
    · simp [freshen_cons_of_mem clash h, ih]
    · simp [freshen_cons_of_not_mem clash h, ih]

/-- A binder is replaced if its name clashes, by a variable of its sort whose name is not
avoided. -/
theorem freshen_find? (avoid : List String) (bs : List Var) (v : Var) :
    (v ∈ bs ∧ v.name ∈ clash ∧
      ∃ f : Var, (freshen clash avoid bs).2.find? v = some (.var f) ∧ f.ty = v.ty ∧
        f.name ∉ avoid) ∨
    (¬ (v ∈ bs ∧ v.name ∈ clash) ∧ (freshen clash avoid bs).2.find? v = none) := by
  induction bs generalizing avoid with
  | nil => exact Or.inr ⟨by simp, rfl⟩
  | cons b bs ih =>
    by_cases hb : b.name ∈ clash
    · rw [freshen_cons_of_mem clash hb, Subst.find?_insertNew]
      rcases ih ((b.fresh avoid).name :: avoid) with ⟨hv, hc, f, hf, hty, hname⟩ | ⟨hv, hf⟩
      · exact Or.inl ⟨List.mem_cons_of_mem _ hv, hc, f, by simp [hf], hty,
          fun h => hname (List.mem_cons_of_mem _ h)⟩
      · by_cases hvb : b = v
        · subst hvb
          exact Or.inl ⟨List.mem_cons_self, hb, b.fresh avoid, by simp [hf], rfl,
            b.fresh_name_not_mem avoid⟩
        · exact Or.inr ⟨by grind, by simp [hf, hvb]⟩
    · rw [freshen_cons_of_not_mem clash hb]
      rcases ih avoid with ⟨hv, hc, h⟩ | ⟨hv, hf⟩
      · exact Or.inl ⟨List.mem_cons_of_mem _ hv, hc, h⟩
      · exact Or.inr ⟨by grind, hf⟩

theorem freshen_isRenaming (avoid : List String) (bs : List Var) :
    (freshen clash avoid bs).2.IsRenaming := by
  intro v r hr
  rcases freshen_find? clash avoid bs v with ⟨-, -, f, hf, -⟩ | ⟨-, hf⟩
  · exact ⟨f, by rw [hf] at hr; exact (Option.some.inj hr).symm⟩
  · rw [hf] at hr
    cases hr

/-- The names of the new binders are those of the old ones that do not clash, and names that are not
avoided. -/
theorem mem_names_freshen (avoid : List String) (bs : List Var) {x : String}
    (hx : x ∈ Var.names (freshen clash avoid bs).1) :
    (x ∈ Var.names bs ∧ x ∉ clash) ∨ x ∉ avoid := by
  induction bs generalizing avoid with
  | nil => simp [freshen_nil, Var.names] at hx
  | cons b bs ih =>
    simp only [Var.names] at ih hx ⊢
    by_cases hb : b.name ∈ clash
    · rw [freshen_cons_of_mem clash hb] at hx
      rcases List.mem_cons.1 hx with rfl | hx
      · exact Or.inr (b.fresh_name_not_mem avoid)
      · rcases ih _ hx with ⟨h, hc⟩ | h
        · exact Or.inl ⟨List.mem_cons_of_mem _ h, hc⟩
        · exact Or.inr fun ha => h (List.mem_cons_of_mem _ ha)
    · rw [freshen_cons_of_not_mem clash hb] at hx
      rcases List.mem_cons.1 hx with rfl | hx
      · exact Or.inl ⟨List.mem_cons_self, hb⟩
      · rcases ih _ hx with ⟨h, hc⟩ | h
        · exact Or.inl ⟨List.mem_cons_of_mem _ h, hc⟩
        · exact Or.inr h

/-- The binder that counts for a name still counts for the name that it has now, and stands where it
stood. -/
theorem freshen_binds {avoid : List String} {bs : List Var} (havoid : ∀ x ∈ Var.names bs, x ∈ avoid)
    {v : Var} (hv : Var.Binds bs v) :
    ∃ f : Var, (freshen clash avoid bs).2.image v = .var f ∧
      Var.Binds (freshen clash avoid bs).1 f ∧ ∀ {α : Type} (as : List α), as.length = bs.length →
        Var.lookup (freshen clash avoid bs).1 as f.name = Var.lookup bs as v.name := by
  induction bs generalizing avoid with
  | nil => exact absurd hv.mem List.not_mem_nil
  | cons b bs ih =>
    have htail : ∀ x ∈ Var.names bs, x ∈ avoid := fun x hx => havoid x (List.mem_cons_of_mem _ hx)
    simp only [Subst.image] at ih ⊢
    rw [Var.binds_cons] at hv
    by_cases hb : b.name ∈ clash
    · rw [freshen_cons_of_mem clash hb, Subst.find?_insertNew]
      have hmore : ∀ x ∈ Var.names bs, x ∈ (b.fresh avoid).name :: avoid :=
        fun x hx => List.mem_cons_of_mem _ (htail x hx)
      rcases hv with hv | ⟨rfl, hname⟩
      · obtain ⟨f, hf, hbinds, hlookup⟩ := ih hmore hv
        refine ⟨f, ?_, Var.binds_cons.2 (Or.inl hbinds), fun as hlen => ?_⟩
        · rcases freshen_find? clash ((b.fresh avoid).name :: avoid) bs v with
            ⟨-, -, g, hg, -⟩ | ⟨hn, hg⟩
          · rw [hg] at hf ⊢
            exact hf
          · have hne : b ≠ v := fun h => hn ⟨hv.mem, h ▸ hb⟩
            rw [hg] at hf ⊢
            simpa [hne] using hf
        · obtain ⟨a, as, rfl⟩ := List.exists_cons_of_length_eq_add_one hlen
          have hlen' : as.length = bs.length := by simpa using hlen
          obtain ⟨c, hc⟩ := Option.isSome_iff_exists.1
            (Var.lookup_isSome (Nat.le_of_eq hlen'.symm) (name_mem_names hv.mem))
          rw [Var.lookup_cons, Var.lookup_cons, hlookup as hlen', hc, Option.some_or,
            Option.some_or]
      · have hnone : (freshen clash ((v.fresh avoid).name :: avoid) bs).2.find? v = none := by
          rcases freshen_find? clash ((v.fresh avoid).name :: avoid) bs v with ⟨h, -⟩ | ⟨-, h⟩
          · exact absurd (name_mem_names h) hname
          · exact h
        have hfresh : (v.fresh avoid).name ∉ Var.names
            (freshen clash ((v.fresh avoid).name :: avoid) bs).1 := by
          intro hx
          rcases mem_names_freshen clash _ bs hx with ⟨h, -⟩ | h
          · exact v.fresh_name_not_mem avoid (htail _ h)
          · exact h List.mem_cons_self
        refine ⟨v.fresh avoid, by simp [hnone], Var.binds_cons.2 (Or.inr ⟨rfl, hfresh⟩),
          fun as hlen => ?_⟩
        obtain ⟨a, as, rfl⟩ := List.exists_cons_of_length_eq_add_one hlen
        rw [Var.lookup_cons, Var.lookup_cons, Var.lookup_eq_none as hfresh,
          Var.lookup_eq_none as hname, if_pos rfl,
          if_pos rfl]
    · rw [freshen_cons_of_not_mem clash hb]
      rcases hv with hv | ⟨rfl, hname⟩
      · obtain ⟨f, hf, hbinds, hlookup⟩ := ih htail hv
        refine ⟨f, hf, Var.binds_cons.2 (Or.inl hbinds), fun as hlen => ?_⟩
        obtain ⟨a, as, rfl⟩ := List.exists_cons_of_length_eq_add_one hlen
        have hlen' : as.length = bs.length := by simpa using hlen
        obtain ⟨c, hc⟩ := Option.isSome_iff_exists.1
          (Var.lookup_isSome (Nat.le_of_eq hlen'.symm) (name_mem_names hv.mem))
        rw [Var.lookup_cons, Var.lookup_cons, hlookup as hlen', hc, Option.some_or, Option.some_or]
      · rcases freshen_find? clash avoid bs v with ⟨-, h, -⟩ | ⟨-, h⟩
        · exact absurd h hb
        · have hkept : v.name ∉ Var.names (freshen clash avoid bs).1 := by
            intro hx
            rcases mem_names_freshen clash _ bs hx with ⟨h, -⟩ | h
            · exact hname h
            · exact h (havoid _ (name_mem_names List.mem_cons_self))
          refine ⟨v, by simp [h], Var.binds_cons.2 (Or.inr ⟨rfl, hkept⟩), fun as hlen => ?_⟩
          obtain ⟨a, as, rfl⟩ := List.exists_cons_of_length_eq_add_one hlen
          rw [Var.lookup_cons, Var.lookup_cons, Var.lookup_eq_none as hkept,
            Var.lookup_eq_none as hname]

end Freshen

/-! ## Depth -/

namespace Subst

/-- The new binders and the renaming, for a substitution below the binders `bs` of `body`. -/
def freshened (s : Subst) (bs : List Var) (body : Expr) : List Var × Subst :=
  freshen (s.live bs body.free).imageNames
    (Var.names body.free ++ (s.live bs body.free).imageNames ++ Var.names bs) bs

theorem freshened_isRenaming (s : Subst) (bs : List Var) (body : Expr) :
    (s.freshened bs body).2.IsRenaming :=
  freshen_isRenaming _ _ _

end Subst

namespace Expr

theorem rebuilt?_map (es : List Expr) (g : Expr → Option Expr) :
    (rebuilt? es (es.map g)).getD es = es.map fun e => (g e).getD e := by
  have hzip : List.zipWith (fun e n => Option.getD n e) es (es.map g) =
      es.map fun e => (g e).getD e := by
    rw [List.zipWith_map_right, List.zipWith_self]
  unfold rebuilt?
  split
  · next h =>
    have hnone : ∀ e ∈ es, g e = none := by simpa using h
    rw [Option.getD_none]
    exact (List.map_id es).symm.trans (List.map_congr_left fun e he => by simp [hnone e he])
  · rw [Option.getD_some, hzip]

theorem depths_map {es : List Expr} {g : Expr → Expr} (h : ∀ e ∈ es, (g e).depth = e.depth) :
    depths (es.map g) = depths es := by
  induction es with
  | nil => rfl
  | cons e es ih =>
    simp only [List.map_cons, depths]
    rw [h e List.mem_cons_self, ih fun e' he => h e' (List.mem_cons_of_mem _ he)]

theorem depth_le_depths {e : Expr} {es : List Expr} (h : e ∈ es) : e.depth ≤ depths es := by
  induction es with
  | nil => exact absurd h List.not_mem_nil
  | cons a es ih =>
    simp only [depths]
    rcases List.mem_cons.1 h with rfl | h
    · omega
    · have := ih h
      omega

def substTo (n : Nat) (s : Subst) (e : Expr) : Expr := (substAux n s e).getD e

section SubstTo
variable (n : Nat) (s : Subst)

theorem substTo_bool (b : Bool) : substTo n s (bool b) = bool b := by cases n <;> rfl

theorem substTo_int (k : Int) : substTo n s (int k) = int k := by cases n <;> rfl

theorem substTo_var (v : Var) : substTo (n + 1) s (var v) = s.image v := rfl

theorem substTo_succ (e : Expr) :
    substTo (n + 1) s e =
      match e with
      | bool b => bool b
      | int k => int k
      | var v => s.image v
      | unary op e => unary op (substTo n s e)
      | binary op l r => binary op (substTo n s l) (substTo n s r)
      | select a i => select (substTo n s a) (substTo n s i)
      | length a => length (substTo n s a)
      | update a i v l => update (substTo n s a) (substTo n s i) (substTo n s v) (substTo n s l)
      | apply p es => apply p (es.map (substTo n s))
      | quant q bs e => if (s.live bs e.free).isEmpty then quant q bs e else
          quant q (s.freshened bs e).1
            (substTo n (s.live bs e.free) (substTo n (s.freshened bs e).2 e)) := by
  cases e with
  | bool b | int k | var v => rfl
  | unary op e | length e =>
    simp only [substTo, substAux]
    cases substAux n s e <;> rfl
  | binary op l r | select l r =>
    simp only [substTo, substAux]
    cases substAux n s l <;> cases substAux n s r <;> rfl
  | update a i v l =>
    simp only [substTo, substAux]
    cases substAux n s a <;> cases substAux n s i <;> cases substAux n s v <;>
      cases substAux n s l <;> rfl
  | apply p es =>
    have h : (rebuilt? es (es.map (substAux n s))).getD es = es.map (substTo n s) :=
      rebuilt?_map es (substAux n s)
    show _ = apply p (es.map (substTo n s))
    rw [← h, substTo, substAux]
    cases rebuilt? es (es.map (substAux n s)) <;> rfl
  | quant q bs e =>
    simp only [substTo, substAux, Subst.freshened]
    split <;> rfl

theorem substTo_unary (op : UnOp) (e : Expr) :
    substTo (n + 1) s (unary op e) = unary op (substTo n s e) :=
  substTo_succ n s _

theorem substTo_binary (op : BinOp) (l r : Expr) :
    substTo (n + 1) s (binary op l r) = binary op (substTo n s l) (substTo n s r) :=
  substTo_succ n s _

theorem substTo_select (a i : Expr) :
    substTo (n + 1) s (select a i) = select (substTo n s a) (substTo n s i) :=
  substTo_succ n s _

theorem substTo_length (a : Expr) : substTo (n + 1) s (length a) = length (substTo n s a) :=
  substTo_succ n s _

theorem substTo_update (a i v l : Expr) : substTo (n + 1) s (update a i v l) =
    update (substTo n s a) (substTo n s i) (substTo n s v) (substTo n s l) := substTo_succ n s _

theorem substTo_apply (p : String) (es : List Expr) :
    substTo (n + 1) s (apply p es) = apply p (es.map (substTo n s)) := substTo_succ n s _

theorem substTo_quant (q : Quantifier) (bs : List Var) (e : Expr) :
    substTo (n + 1) s (quant q bs e) = if (s.live bs e.free).isEmpty then quant q bs e else
      quant q (s.freshened bs e).1
        (substTo n (s.live bs e.free) (substTo n (s.freshened bs e).2 e)) := substTo_succ n s _

end SubstTo

theorem depth_substTo (n : Nat) {s : Subst} (hs : s.IsRenaming)
    (e : Expr) : (substTo n s e).depth = e.depth := by
  induction n generalizing s e with
  | zero => rfl
  | succ n ih =>
    cases e with
    | bool b => rw [substTo_bool]
    | int k => rw [substTo_int]
    | var v =>
      rw [substTo_var, Subst.image]
      cases h : s.find? v with
      | none => rfl
      | some r =>
        obtain ⟨w, rfl⟩ := hs v r h
        rfl
    | unary op e => rw [substTo_unary, depth, depth, ih hs]
    | binary op l r => rw [substTo_binary, depth, depth, ih hs, ih hs]
    | select a i => rw [substTo_select, depth, depth, ih hs, ih hs]
    | length a => rw [substTo_length, depth, depth, ih hs]
    | update a i v l => rw [substTo_update, depth, depth, ih hs, ih hs, ih hs, ih hs]
    | apply p es => rw [substTo_apply, depth, depth, depths_map fun e _ => ih hs e]
    | quant q bs e =>
      rw [substTo_quant]
      split
      · rfl
      · rw [depth, depth, ih (hs.live bs e.free), ih (s.freshened_isRenaming bs e)]

/-- A depth that the expression does not exceed is as good as any other. -/
theorem substTo_congr (m n : Nat) (s : Subst) (e : Expr) (hm : e.depth ≤ m) (hn : e.depth ≤ n) :
    substTo m s e = substTo n s e := by
  induction m generalizing n s e with
  | zero => cases e <;> simp [depth] at hm
  | succ m ih =>
    cases n with
    | zero => cases e <;> simp [depth] at hn
    | succ n =>
      cases e with
      | bool b => rw [substTo_bool, substTo_bool]
      | int k => rw [substTo_int, substTo_int]
      | var v => rfl
      | unary op e =>
        simp only [depth] at hm hn
        rw [substTo_unary, substTo_unary, ih n s e (by omega) (by omega)]
      | binary op l r =>
        simp only [depth] at hm hn
        rw [substTo_binary, substTo_binary, ih n s l (by omega) (by omega),
          ih n s r (by omega) (by omega)]
      | select a i =>
        simp only [depth] at hm hn
        rw [substTo_select, substTo_select, ih n s a (by omega) (by omega),
          ih n s i (by omega) (by omega)]
      | length a =>
        simp only [depth] at hm hn
        rw [substTo_length, substTo_length, ih n s a (by omega) (by omega)]
      | update a i v l =>
        simp only [depth] at hm hn
        rw [substTo_update, substTo_update, ih n s a (by omega) (by omega),
          ih n s i (by omega) (by omega),
          ih n s v (by omega) (by omega), ih n s l (by omega) (by omega)]
      | apply p es =>
        simp only [depth] at hm hn
        rw [substTo_apply, substTo_apply]
        congr 1
        refine List.map_congr_left fun e he => ?_
        have := depth_le_depths he
        exact ih n s e (by omega) (by omega)
      | quant q bs e =>
        simp only [depth] at hm hn
        -- the second pass runs on the renamed body, which is as deep as the body
        have hd := depth_substTo n (s.freshened_isRenaming bs e) e
        rw [substTo_quant, substTo_quant, ih n (s.freshened bs e).2 e (by omega) (by omega),
          ih n (s.live bs e.free) _ (by omega) (by omega)]

theorem subst_eq_substTo {n : Nat} (s : Subst) {e : Expr} (h : e.depth ≤ n) :
    e.subst s = substTo n s e :=
  substTo_congr _ n s e (Nat.le_refl _) h

theorem depth_subst {s : Subst} (hs : s.IsRenaming) (e : Expr) : (e.subst s).depth = e.depth :=
  depth_substTo _ hs e

/-! ## Substitution form by form -/

section Forms
variable (s : Subst)

@[simp] theorem subst_bool (b : Bool) : (bool b).subst s = bool b := substTo_bool _ s b

@[simp] theorem subst_int (n : Int) : (int n).subst s = int n := substTo_int _ s n

@[simp] theorem subst_var (v : Var) : (var v).subst s = s.image v := rfl

@[simp] theorem subst_unary (op : UnOp) (e : Expr) : (unary op e).subst s = unary op (e.subst s) :=
  substTo_unary _ s op e

@[simp] theorem subst_binary (op : BinOp) (l r : Expr) :
    (binary op l r).subst s = binary op (l.subst s) (r.subst s) := by
  show substTo (max l.depth r.depth + 1) s (binary op l r) = _
  rw [substTo_binary, ← subst_eq_substTo s (Nat.le_max_left _ _),
    ← subst_eq_substTo s (Nat.le_max_right _ _)]

@[simp] theorem subst_select (a i : Expr) :
    (select a i).subst s = select (a.subst s) (i.subst s) := by
  show substTo (max a.depth i.depth + 1) s (select a i) = _
  rw [substTo_select, ← subst_eq_substTo s (Nat.le_max_left _ _),
    ← subst_eq_substTo s (Nat.le_max_right _ _)]

@[simp] theorem subst_length (a : Expr) : (length a).subst s = length (a.subst s) :=
  substTo_length _ s a

@[simp] theorem subst_update (a i v l : Expr) :
    (update a i v l).subst s = update (a.subst s) (i.subst s) (v.subst s) (l.subst s) := by
  show substTo (max (max a.depth i.depth) (max v.depth l.depth) + 1) s (update a i v l) = _
  rw [substTo_update, ← subst_eq_substTo s (by omega),
    ← subst_eq_substTo s (by omega), ← subst_eq_substTo s (by omega),
    ← subst_eq_substTo s (by omega)]

@[simp] theorem subst_apply (p : String) (es : List Expr) :
    (apply p es).subst s = apply p (es.map (Expr.subst s)) := by
  show substTo (depths es + 1) s (apply p es) = _
  rw [substTo_apply]
  congr 1
  exact List.map_congr_left fun e he => (subst_eq_substTo s (depth_le_depths he)).symm

theorem subst_quant (q : Quantifier) (bs : List Var) (e : Expr) :
    (quant q bs e).subst s = if (s.live bs e.free).isEmpty then quant q bs e else
      quant q (s.freshened bs e).1 ((e.subst (s.freshened bs e).2).subst (s.live bs e.free)) := by
  show substTo (e.depth + 1) s (quant q bs e) = _
  rw [substTo_quant, ← subst_eq_substTo _ (Nat.le_refl _),
    ← subst_eq_substTo _ (Nat.le_of_eq (depth_subst (s.freshened_isRenaming bs e) e))]

end Forms

end Expr

/-! ## Below a binder -/

namespace Subst
variable (s : Subst) (bs : List Var) (e : Expr)

theorem image_live {v : Var} (hv : v ∈ e.free) (hname : v.name ∉ Var.names bs) :
    (s.live bs e.free).image v = s.image v := by
  rw [image, find?_live, if_pos ⟨hname, hv⟩, image]

theorem image_live_of_hidden {v : Var} (h : v.name ∈ Var.names bs ∨ v ∉ e.free) :
    (s.live bs e.free).image v = .var v := by
  rw [image, find?_live, if_neg (by grind), Option.getD_none]

/-- Where no replacement reaches the body, the free variables stay as they are. -/
theorem image_of_live_isEmpty (h : (s.live bs e.free).isEmpty) {v : Var} (hv : v ∈ e.free)
    (hname : v.name ∉ Var.names bs) : s.image v = .var v := by
  rw [← image_live s bs e hv hname, List.isEmpty_iff.1 h]
  rfl

theorem freshened_map_ty : (s.freshened bs e).1.map Var.ty = bs.map Var.ty := freshen_map_ty _ _ _

theorem length_freshened : (s.freshened bs e).1.length = bs.length := by
  simpa using congrArg List.length (s.freshened_map_ty bs e)

theorem freshened_image_of_not_mem {v : Var} (h : v.name ∉ Var.names bs) :
    (s.freshened bs e).2.image v = .var v := by
  rcases freshen_find? _ _ bs v with ⟨hv, -⟩ | ⟨-, hf⟩
  · exact absurd (name_mem_names hv) h
  · exact image_of_find?_eq_none hf

theorem freshened_binds {v : Var} (h : Var.Binds bs v) :
    ∃ f, (s.freshened bs e).2.image v = .var f ∧ Var.Binds (s.freshened bs e).1 f ∧
      ∀ {α : Type} (as : List α), as.length = bs.length →
        Var.lookup (s.freshened bs e).1 as f.name = Var.lookup bs as v.name :=
  freshen_binds _ (fun _ hx => List.mem_append_right _ hx) h

/-- A free variable that was not bound is not bound by the new binders. -/
theorem name_not_mem_freshened {v : Var} (hv : v ∈ e.free) (hname : v.name ∉ Var.names bs) :
    v.name ∉ Var.names (s.freshened bs e).1 := by
  intro h
  rcases mem_names_freshen _ _ bs h with ⟨h, -⟩ | h
  · exact hname h
  · exact h (List.mem_append_left _ (List.mem_append_left _ (name_mem_names hv)))

/-- No free variable of a replacement is bound by the new binders. -/
theorem image_name_not_mem_freshened {v : Var} (hv : v ∈ e.free) (hname : v.name ∉ Var.names bs)
    {w : Var} (hw : w ∈ (s.image v).free) : w.name ∉ Var.names (s.freshened bs e).1 := by
  rw [← image_live s bs e hv hname] at hw
  cases hr : (s.live bs e.free).find? v with
  | none =>
    rw [image_of_find?_eq_none hr, Expr.mem_free_var] at hw
    exact hw ▸ name_not_mem_freshened s bs e hv hname
  | some r =>
    rw [image_of_find?_eq_some hr] at hw
    have hclash := mem_imageNames hr hw
    intro h
    rcases mem_names_freshen _ _ bs h with ⟨-, h⟩ | h
    · exact h hclash
    · exact h (List.mem_append_left _ (List.mem_append_right _ hclash))

/-- A new binder is no key: keys are free in the body and not bound. -/
theorem image_live_of_freshened {u : Var} (hu : u.name ∈ Var.names (s.freshened bs e).1) :
    (s.live bs e.free).image u = .var u := by
  by_cases hname : u.name ∈ Var.names bs
  · exact image_live_of_hidden s bs e (Or.inl hname)
  · exact image_live_of_hidden s bs e
      (Or.inr fun hfree => name_not_mem_freshened s bs e hfree hname hu)

end Subst

/-! ## Free variables and scopes -/

namespace Expr

/-- The free variables of a substitution below binders: the variables of the new binders, and the
images of the variables that were not bound. -/
theorem mem_free_substBody {s : Subst} {bs : List Var} {e : Expr}
    (hbinds : ∀ v ∈ e.free, v.name ∈ Var.names bs → Var.Binds bs v)
    (hren : ∀ w, w ∈ (e.subst (s.freshened bs e).2).free ↔
      ∃ v ∈ e.free, w ∈ ((s.freshened bs e).2.image v).free)
    (hlive : ∀ w, w ∈ ((e.subst (s.freshened bs e).2).subst (s.live bs e.free)).free ↔
      ∃ u ∈ (e.subst (s.freshened bs e).2).free, w ∈ ((s.live bs e.free).image u).free) (w : Var) :
    w ∈ ((e.subst (s.freshened bs e).2).subst (s.live bs e.free)).free ↔
      (∃ v ∈ e.free, Var.Binds bs v ∧ (s.freshened bs e).2.image v = .var w ∧
        Var.Binds (s.freshened bs e).1 w) ∨
      ∃ v ∈ e.free, v.name ∉ Var.names bs ∧ w ∈ (s.image v).free := by
  rw [hlive]
  constructor
  · rintro ⟨u, hu, hw⟩
    obtain ⟨v, hv, huv⟩ := (hren u).1 hu
    by_cases hname : v.name ∈ Var.names bs
    · have hb := hbinds v hv hname
      obtain ⟨f, hf, hbf, -⟩ := s.freshened_binds bs e hb
      rw [hf, mem_free_var] at huv
      subst huv
      rw [s.image_live_of_freshened bs e (name_mem_names hbf.mem), mem_free_var] at hw
      exact Or.inl ⟨v, hv, hb, hw ▸ hf, hw ▸ hbf⟩
    · rw [s.freshened_image_of_not_mem bs e hname, mem_free_var] at huv
      subst huv
      rw [s.image_live bs e hv hname] at hw
      exact Or.inr ⟨u, hv, hname, hw⟩
  · rintro (⟨v, hv, hb, hf, hbf⟩ | ⟨v, hv, hname, hw⟩)
    · refine ⟨w, (hren w).2 ⟨v, hv, by rw [hf, mem_free_var]⟩, ?_⟩
      rw [s.image_live_of_freshened bs e (name_mem_names hbf.mem), mem_free_var]
    · refine ⟨v,
        (hren v).2 ⟨v, hv, by rw [s.freshened_image_of_not_mem bs e hname, mem_free_var]⟩, ?_⟩
      rw [s.image_live bs e hv hname]
      exact hw

/-- What a substitution does to free variables and scopes. -/
def SubstLaws (s : Subst) (e : Expr) : Prop :=
  (∀ w, w ∈ (e.subst s).free ↔ ∃ v ∈ e.free, w ∈ (s.image v).free) ∧
    ((∀ v ∈ e.free, (s.image v).Scoped) → (e.subst s).Scoped)

theorem SubstLaws.apply {s : Subst} {p : String} {es : List Expr} (h : ∀ e ∈ es, SubstLaws s e) :
    SubstLaws s (apply p es) := by
  refine ⟨fun w => ?_, fun hs => ?_⟩
  · simp only [subst_apply, mem_free_apply, List.mem_map, exists_exists_and_eq_and]
    constructor
    · rintro ⟨a, ha, hw⟩
      obtain ⟨v, hv, hw⟩ := ((h a ha).1 w).1 hw
      exact ⟨v, ⟨a, ha, hv⟩, hw⟩
    · rintro ⟨v, ⟨a, ha, hv⟩, hw⟩
      exact ⟨a, ha, ((h a ha).1 w).2 ⟨v, hv, hw⟩⟩
  · rw [subst_apply]
    refine scopedAll_iff.2 fun a ha => ?_
    obtain ⟨b, hb, rfl⟩ := List.mem_map.1 ha
    exact (h b hb).2 fun v hv => hs v ((mem_free_apply p es).2 ⟨b, hb, hv⟩)

/-- Below binders both passes have to obey the laws. -/
theorem SubstLaws.quant {s : Subst} {q : Quantifier} {bs : List Var} {e : Expr}
    (he : (quant q bs e).Scoped) (hren : SubstLaws (s.freshened bs e).2 e)
    (hlive : SubstLaws (s.live bs e.free) (e.subst (s.freshened bs e).2)) :
    SubstLaws s (quant q bs e) := by
  obtain ⟨hscope, hbinds⟩ := he
  rw [SubstLaws, subst_quant]
  split
  · next hempty =>
    refine ⟨fun w => ⟨fun hw => ⟨w, hw, ?_⟩, ?_⟩, fun _ => ⟨hscope, hbinds⟩⟩
    · rw [mem_free_quant] at hw
      rw [s.image_of_live_isEmpty bs e hempty hw.1 hw.2, mem_free_var]
    · rintro ⟨v, hv, hw⟩
      have hv' := (mem_free_quant q bs e).1 hv
      rw [s.image_of_live_isEmpty bs e hempty hv'.1 hv'.2, mem_free_var] at hw
      exact hw ▸ hv
  · have hfree := mem_free_substBody hbinds hren.1 hlive.1
    refine ⟨fun w => ?_, fun h => ⟨hlive.2 fun u hu => ?_, fun w hw hname => ?_⟩⟩
    · rw [mem_free_quant, hfree]
      constructor
      · rintro ⟨⟨v, -, -, -, hbf⟩ | ⟨v, hv, hname, hw⟩, hw'⟩
        · exact absurd (name_mem_names hbf.mem) hw'
        · exact ⟨v, (mem_free_quant q bs e).2 ⟨hv, hname⟩, hw⟩
      · rintro ⟨v, hv, hw⟩
        obtain ⟨hv, hname⟩ := (mem_free_quant q bs e).1 hv
        exact ⟨Or.inr ⟨v, hv, hname, hw⟩, s.image_name_not_mem_freshened bs e hv hname hw⟩
    · by_cases hu' : u ∈ e.free ∧ u.name ∉ Var.names bs
      · rw [s.image_live bs e hu'.1 hu'.2]
        exact h u ((mem_free_quant q bs e).2 hu')
      · rw [s.image_live_of_hidden bs e (by grind)]
        trivial
    · rcases (hfree w).1 hw with ⟨-, -, -, -, hbf⟩ | ⟨v, hv, hnv, hw⟩
      · exact hbf
      · exact absurd hname (s.image_name_not_mem_freshened bs e hv hnv hw)

/-- Both laws at once: the second pass below a binder needs that the first one keeps scopes. -/
theorem substLaws {n : Nat} (s : Subst) {e : Expr} (hn : e.depth ≤ n)
    (he : e.Scoped) : SubstLaws s e := by
  induction n generalizing s e with
  | zero => cases e <;> simp [depth] at hn
  | succ n ih =>
    cases e with
    | bool b | int k => simp [SubstLaws, Scoped]
    | var v => simp [SubstLaws]
    | unary op e | length e =>
      simp only [depth] at hn
      simpa [SubstLaws, Scoped] using ih s (e := e) (by omega) he
    | binary op l r | select l r =>
      simp only [depth] at hn
      obtain ⟨hl, hl'⟩ := ih s (e := l) (by omega) he.1
      obtain ⟨hr, hr'⟩ := ih s (e := r) (by omega) he.2
      refine ⟨fun w => ?_, fun h => ?_⟩
      · simp only [subst_binary, subst_select, mem_free_binary, mem_free_select, hl, hr]
        grind
      · simp only [subst_binary, subst_select]
        exact ⟨hl' fun v hv => h v (by simp [hv]), hr' fun v hv => h v (by simp [hv])⟩
    | update a i x l =>
      simp only [depth] at hn
      obtain ⟨ha, ha'⟩ := ih s (e := a) (by omega) he.1
      obtain ⟨hi, hi'⟩ := ih s (e := i) (by omega) he.2.1
      obtain ⟨hx, hx'⟩ := ih s (e := x) (by omega) he.2.2.1
      obtain ⟨hl, hl'⟩ := ih s (e := l) (by omega) he.2.2.2
      refine ⟨fun w => ?_, fun h => ?_⟩
      · simp only [subst_update, mem_free_update, ha, hi, hx, hl]
        grind
      · rw [subst_update]
        exact ⟨ha' fun v hv => h v (by simp [hv]), hi' fun v hv => h v (by simp [hv]),
          hx' fun v hv => h v (by simp [hv]), hl' fun v hv => h v (by simp [hv])⟩
    | apply p es =>
      simp only [depth] at hn
      refine .apply fun a ha => ih s ?_ (scopedAll_iff.1 he a ha)
      have := depth_le_depths ha
      omega
    | quant q bs e =>
      simp only [depth] at hn
      have hren : SubstLaws (s.freshened bs e).2 e := ih _ (by omega) he.1
      have hdepth := depth_subst (s.freshened_isRenaming bs e) e
      exact .quant he hren
        (ih _ (by omega) (hren.2 fun v _ => (s.freshened_isRenaming bs e).scoped_image v))

/-- The free variables of a substitution are those of what became of the free variables. -/
theorem mem_free_subst (s : Subst) {e : Expr} (he : e.Scoped) {w : Var} :
    w ∈ (e.subst s).free ↔ ∃ v ∈ e.free, w ∈ (s.image v).free :=
  (substLaws s (Nat.le_refl _) he).1 w

theorem Scoped.subst {e : Expr} (he : e.Scoped) {s : Subst}
    (hs : ∀ v ∈ e.free, (s.image v).Scoped) : (e.subst s).Scoped :=
  (substLaws s (Nat.le_refl _) he).2 hs

end Expr

end Cutpoint
