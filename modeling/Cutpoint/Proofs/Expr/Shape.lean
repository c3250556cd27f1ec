import Mathlib.Data.List.Forall2
import Cutpoint.Proofs.Expr.Nameless

/-!
# The shape of an expression

The shape is what is left of an expression without the names and the sorts of its variables and
without the names of its binders.

* `Expr.parts`, `Expr.head`, `Expr.at?`: what is right below the root, what stands at it, and the
  expression at a position;
* `Expr.SameShape`: the same heads at the same positions. What is computed from the heads upwards,
  such as the depth and the size, then agrees too (`SameShape.fold_eq`);
* `Expr.sameShape_subst`: variables for variables keep the shape;
* `Expr.Substitutes s e r`: substitution by rules, with no bound on their number. Below a binder the
  rules are used on the body and then on the renamed body, and they end because the second is as
  deep as the first (`Expr.substitutes_iff`).
-/

set_option autoImplicit false

namespace Cutpoint

namespace Expr

/-! ## Parts -/

/-- The expressions right below the root. -/
def parts : Expr → List Expr
  | bool _ | int _ | var _ => []
  | unary _ e | length e | quant _ _ e => [e]
  | binary _ l r | select l r => [l, r]
  | update a i v l => [a, i, v, l]
  | apply _ es => es

/-- The expression with other parts at its root. A list that does not fit is passed over. -/
def withParts : Expr → List Expr → Expr
  | unary op _, [e] => unary op e
  | binary op _ _, [l, r] => binary op l r
  | select _ _, [a, i] => select a i
  | length _, [a] => length a
  | update _ _ _ _, [a, i, v, l] => update a i v l
  | apply p _, es => apply p es
  | quant q bs _, [e] => quant q bs e
  | e, _ => e

/-- Induction from the parts to the whole. -/
theorem induct_parts {P : Expr → Prop} (h : ∀ e, (∀ f ∈ e.parts, P f) → P e) (e : Expr) : P e := by
  induction e with
  | bool b | int n | var v => exact h _ fun f hf => absurd hf List.not_mem_nil
  | unary op e ih | length e ih | quant q bs e ih => exact h _ (by simpa [parts] using ih)
  | binary op l r hl hr | select l r hl hr => exact h _ (by simpa [parts] using ⟨hl, hr⟩)
  | update a i v l ha hi hv hl => exact h _ (by simpa [parts] using ⟨ha, hi, hv, hl⟩)
  | apply p es ih => exact h _ ih

theorem depths_eq (es : List Expr) : depths es = (es.map depth).foldr max 0 := by
  induction es with
  | nil => rfl
  | cons e es ih => rw [depths, ih, List.map_cons, List.foldr_cons]

theorem depth_eq (e : Expr) : e.depth = (e.parts.map depth).foldr max 0 + 1 := by
  cases e with
  | apply p es => rw [depth, depths_eq, parts]
  | _ => simp [depth, parts, Nat.max_assoc]

theorem depth_lt_of_mem_parts {e f : Expr} (h : f ∈ e.parts) : f.depth < e.depth := by
  rw [depth_eq e, ← depths_eq]
  exact Nat.lt_succ_of_le (depth_le_depths h)

mutual

/-- The number of nodes. -/
def size : Expr → Nat
  | bool _ => 1
  | int _ => 1
  | var _ => 1
  | unary _ e => e.size + 1
  | binary _ l r => l.size + r.size + 1
  | select a i => a.size + i.size + 1
  | length a => a.size + 1
  | update a i v l => a.size + i.size + v.size + l.size + 1
  | apply _ es => sizes es + 1
  | quant _ _ e => e.size + 1

def sizes : List Expr → Nat
  | [] => 0
  | e :: es => e.size + sizes es

end

theorem sizes_eq (es : List Expr) : sizes es = (es.map size).foldr Nat.add 0 := by
  induction es with
  | nil => rfl
  | cons e es ih =>
    rw [sizes, ih]
    rfl

theorem size_eq (e : Expr) : e.size = (e.parts.map size).foldr Nat.add 0 + 1 := by
  rw [← sizes_eq]
  cases e with
  | apply p es => rfl
  | _ => simp [size, sizes, parts, Nat.add_assoc]

/-! ## Shapes -/

/-- What stands at a node. Of a variable neither the name nor the sort counts, and of a binder only
the sort. -/
inductive Head where
  | bool (value : Bool)
  | int (value : Int)
  | var
  | unary (op : UnOp)
  | binary (op : BinOp)
  | select
  | length
  | update
  | apply (predicate : String)
  | quant (q : Quantifier) (sorts : List Ty)
  deriving DecidableEq

def head : Expr → Head
  | bool b => .bool b
  | int n => .int n
  | var _ => .var
  | unary op _ => .unary op
  | binary op _ _ => .binary op
  | select _ _ => .select
  | length _ => .length
  | update _ _ _ _ => .update
  | apply p _ => .apply p
  | quant q bs _ => .quant q (bs.map Var.ty)

/-- The expression at a position: the way there is the number of a part, the number of a part of
that part, and so on. -/
def at? : Expr → List Nat → Option Expr
  | e, [] => some e
  | e, k :: ks => e.parts[k]?.bind fun f => f.at? ks

theorem at?_nil (e : Expr) : e.at? [] = some e := rfl

theorem at?_cons (e : Expr) (k : Nat) (ks : List Nat) :
    e.at? (k :: ks) = e.parts[k]?.bind fun f => f.at? ks := rfl

theorem at?_append (e : Expr) (ks ls : List Nat) :
    e.at? (ks ++ ls) = (e.at? ks).bind fun f => f.at? ls := by
  induction ks generalizing e with
  | nil => rfl
  | cons k ks ih =>
    rw [List.cons_append, at?_cons, at?_cons, Option.bind_assoc]
    exact congrArg _ (funext ih)

/-- The same positions, with the same heads there. -/
def SameShape (e f : Expr) : Prop := ∀ pos, (e.at? pos).map head = (f.at? pos).map head

theorem forall₂_iff_getElem? {α β : Type} {R : α → β → Prop} {as : List α} {bs : List β} :
    List.Forall₂ R as bs ↔ ∀ k : Nat, Option.Rel R as[k]? bs[k]? := by
  constructor
  · intro h
    induction h with
    | nil => exact fun _ => .none
    | cons hab _ ih =>
      intro k
      cases k with
      | zero => exact .some hab
      | succ k => exact ih k
  · intro h
    induction as generalizing bs with
    | nil =>
      cases bs with
      | nil => exact .nil
      | cons b bs => nomatch h 0
    | cons a as ih =>
      cases bs with
      | nil => nomatch h 0
      | cons b bs =>
        have hab : R a b := by
          cases h 0 with
          | some hab => exact hab
        exact .cons hab (ih fun k => h (k + 1))

namespace SameShape
variable {e f g : Expr}

theorem refl (e : Expr) : SameShape e e := fun _ => rfl

theorem trans (h : SameShape e f) (h' : SameShape f g) : SameShape e g :=
  fun pos => (h pos).trans (h' pos)

theorem head_eq (h : SameShape e f) : e.head = f.head := Option.some.inj (h [])

/-- At a position there are two expressions of the same shape, or none. -/
theorem at? (h : SameShape e f) (pos : List Nat) :
    Option.Rel SameShape (e.at? pos) (f.at? pos) := by
  have hpos := h pos
  have hbelow : ∀ ks, ((e.at? pos).bind fun a => a.at? ks).map head =
      ((f.at? pos).bind fun b => b.at? ks).map head := by
    intro ks
    rw [← at?_append, ← at?_append]
    exact h (pos ++ ks)
  cases he : e.at? pos <;> cases hf : f.at? pos <;> rw [he, hf] at hpos hbelow
  · exact .none
  · cases hpos
  · cases hpos
  · exact .some hbelow

theorem parts (h : SameShape e f) : List.Forall₂ SameShape e.parts f.parts := by
  refine forall₂_iff_getElem?.2 fun k => ?_
  simpa only [at?_cons, at?_nil, Option.bind_fun_some] using h.at? [k]

theorem of_parts (hhead : e.head = f.head) (hparts : List.Forall₂ SameShape e.parts f.parts) :
    SameShape e f := by
  intro pos
  cases pos with
  | nil => exact congrArg some hhead
  | cons k ks =>
    have hk := forall₂_iff_getElem?.1 hparts k
    rw [at?_cons, at?_cons]
    generalize e.parts[k]? = a at hk ⊢
    generalize f.parts[k]? = b at hk ⊢
    cases hk with
    | none => rfl
    | some h => exact h ks

/-- Whatever is computed from the heads upwards is the same for two expressions of the same
shape. -/
theorem fold_eq {α : Type} {φ : Expr → α} (step : Head → List α → α)
    (hφ : ∀ e, φ e = step e.head (e.parts.map φ)) (h : SameShape e f) : φ e = φ f := by
  induction e using induct_parts generalizing f with
  | h e ih =>
    have hparts : e.parts.map φ = f.parts.map φ := by
      have hsame := h.parts
      generalize f.parts = gs at hsame
      generalize e.parts = es at hsame ih
      induction hsame with
      | nil => rfl
      | cons hab _ ih' =>
        rw [List.map_cons, List.map_cons, ih _ List.mem_cons_self hab,
          ih' fun c hc => ih c (List.mem_cons_of_mem _ hc)]
    rw [hφ e, hφ f, h.head_eq, hparts]

theorem depth_eq (h : SameShape e f) : e.depth = f.depth :=
  h.fold_eq (fun _ ds => ds.foldr max 0 + 1) Expr.depth_eq

theorem size_eq (h : SameShape e f) : e.size = f.size :=
  h.fold_eq (fun _ ns => ns.foldr Nat.add 0 + 1) Expr.size_eq

end SameShape

/-! ## Substitution from the parts to the whole -/

/-- Substitution replaces variables, and does something of its own at a quantifier; all else keeps
its head and gets new parts. -/
def Rigid : Expr → Prop
  | var _ => False
  | quant _ _ _ => False
  | _ => True

theorem forms (e : Expr) : (∃ v, e = var v) ∨ (∃ q bs f, e = quant q bs f) ∨ e.Rigid := by
  cases e with
  | var v => exact .inl ⟨v, rfl⟩
  | quant q bs f => exact .inr (.inl ⟨q, bs, f, rfl⟩)
  | _ => exact .inr (.inr trivial)

theorem head_withParts (e : Expr) (fs : List Expr) : (e.withParts fs).head = e.head := by
  unfold withParts
  split <;> rfl

theorem parts_withParts_map (e : Expr) (g : Expr → Expr) :
    (e.withParts (e.parts.map g)).parts = e.parts.map g := by
  cases e <;> rfl

section Parts
variable {e : Expr} {n : Nat} {s : Subst}

theorem Rigid.substTo_eq (he : e.Rigid) :
    substTo (n + 1) s e = e.withParts (e.parts.map (substTo n s)) := by
  cases e with
  | var v | quant q bs f => exact he.elim
  | _ => exact substTo_succ n s _

theorem Rigid.substAux_eq (he : e.Rigid) :
    substAux (n + 1) s e = (rebuilt? e.parts (e.parts.map (substAux n s))).map e.withParts := by
  cases e with
  | bool b | int k => rfl
  | var v | quant q bs f => exact he.elim
  | unary op f | length f =>
    rw [substAux]
    cases h : substAux n s f <;> simp [parts, withParts, rebuilt?, h]
  | binary op l r | select l r =>
    rw [substAux]
    cases hl : substAux n s l <;> cases hr : substAux n s r <;>
      simp [parts, withParts, rebuilt?, hl, hr]
  | update a i v l =>
    rw [substAux]
    cases ha : substAux n s a <;> cases hi : substAux n s i <;> cases hv :
      substAux n s v <;> cases hl : substAux n s l <;>
      simp [parts, withParts, rebuilt?, ha, hi, hv, hl]
  | apply p es => rfl

end Parts

/-! ## Variables for variables -/

theorem isRenaming_foldl_insert {ps : List (Var × Expr)} (hps : ∀ p ∈ ps, ∃ w, p.2 = var w)
    {s : Subst} (hs : s.IsRenaming) : (ps.foldl (fun s p => s.insert p.1 p.2) s).IsRenaming := by
  induction ps generalizing s with
  | nil => exact hs
  | cons p ps ih =>
    refine ih (fun q hq => hps q (List.mem_cons_of_mem _ hq)) fun v r hr => ?_
    rw [Subst.find?_insert] at hr
    split at hr
    · exact Option.some.inj hr ▸ hps p List.mem_cons_self
    · exact hs v r hr

theorem isRenaming_ofRenaming (ps : List (Var × Var)) : (Subst.ofRenaming ps).IsRenaming := by
  refine isRenaming_foldl_insert (fun p hp => ?_) fun v r hr => nomatch hr
  obtain ⟨q, -, rfl⟩ := List.mem_map.1 hp
  exact ⟨q.2, rfl⟩

theorem SameShape.map {g : Expr → Expr} {es : List Expr} (h : ∀ e ∈ es, SameShape (g e) e) :
    List.Forall₂ SameShape (es.map g) es := by
  rw [List.forall₂_map_left_iff, List.forall₂_same]
  exact h

/-- Below a binder both passes put variables for variables: the first one always does, and the
second one if the whole does. -/
theorem sameShape_substTo (n : Nat) {s : Subst} (hs : s.IsRenaming)
    (e : Expr) : SameShape (substTo n s e) e := by
  induction n generalizing s e with
  | zero => exact .refl e
  | succ n ih =>
    rcases e.forms with ⟨v, rfl⟩ | ⟨q, bs, f, rfl⟩ | he
    · have hvar : ∃ w, s.image v = var w := by
        cases h : s.find? v with
        | none => exact ⟨v, Subst.image_of_find?_eq_none h⟩
        | some r =>
          obtain ⟨w, rfl⟩ := hs v r h
          exact ⟨w, Subst.image_of_find?_eq_some h⟩
      obtain ⟨w, hw⟩ := hvar
      rw [substTo_var, hw]
      exact .of_parts rfl .nil
    · rw [substTo_quant]
      split
      · exact .refl _
      · refine .of_parts ?_ (.cons ?_ .nil)
        · rw [head, head, Subst.freshened_map_ty]
        · exact (ih (hs.live bs f.free) _).trans (ih (s.freshened_isRenaming bs f) f)
    · rw [he.substTo_eq]
      refine .of_parts (head_withParts _ _) ?_
      rw [parts_withParts_map]
      exact SameShape.map fun f _ => ih hs f

theorem sameShape_subst {s : Subst} (hs : s.IsRenaming) (e : Expr) : SameShape (e.subst s) e :=
  sameShape_substTo _ hs e

/-! ## Substitution by rules -/

/-- What becomes of an expression, if anything is replaced. Below a binder the renamed body, which
is no part of the expression, is gone through like any other expression. -/
inductive Substitutes : Subst → Expr → Option Expr → Prop
  | var (s : Subst) (v : Var) : Substitutes s (var v) (s.find? v)
  | rigid {s : Subst} {e : Expr} {new : Expr → Option Expr} (he : e.Rigid)
      (hparts : ∀ f ∈ e.parts, Substitutes s f (new f)) :
      Substitutes s e ((rebuilt? e.parts (e.parts.map new)).map e.withParts)
  | hidden {s : Subst} {bs : List Var} {e : Expr} (q : Quantifier)
      (hlive : (s.live bs e.free).isEmpty) : Substitutes s (quant q bs e) none
  | binder {s : Subst} {bs : List Var} {e : Expr} {first second : Option Expr} (q : Quantifier)
      (hlive : ¬ (s.live bs e.free).isEmpty) (hfirst : Substitutes (s.freshened bs e).2 e first)
      (hsecond : Substitutes (s.live bs e.free) (first.getD e) second) : Substitutes s
      (quant q bs e) (some (quant q (s.freshened bs e).1 (second.getD (first.getD e))))

theorem substAux_quant (n : Nat) (s : Subst) (q : Quantifier) (bs : List Var) (e : Expr) :
    substAux (n + 1) s (quant q bs e) = if (s.live bs e.free).isEmpty then none else
      some (quant q (s.freshened bs e).1
        (substTo n (s.live bs e.free) (substTo n (s.freshened bs e).2 e))) := rfl

/-- The rules lead to one result for every expression, and it is the one of the recursion: a depth
that bounds the expression bounds its parts, the body of a quantifier, and the renamed body too. -/
theorem substitutes_iff {n : Nat} {s : Subst} {e : Expr} {r : Option Expr} (hn : e.depth ≤ n) :
    Substitutes s e r ↔ r = substAux n s e := by
  induction n generalizing s e r with
  | zero =>
    rw [depth_eq] at hn
    omega
  | succ n ih =>
    rcases e.forms with ⟨v, rfl⟩ | ⟨q, bs, f, rfl⟩ | he
    · constructor
      · intro h
        cases h with
        | var => rfl
        | rigid he => exact he.elim
      · rintro rfl
        exact .var s v
    · have hf : f.depth ≤ n := Nat.le_of_succ_le_succ hn
      -- the renamed body is not a part, so its depth comes from the shape and not from the
      -- recursion
      have hrenamed : (substTo n (s.freshened bs f).2 f).depth ≤ n := by
        rw [(sameShape_substTo n (s.freshened_isRenaming bs f) f).depth_eq]
        exact hf
      rw [substAux_quant]
      constructor
      · intro h
        cases h with
        | rigid he => exact he.elim
        | hidden _ hlive => rw [if_pos hlive]
        | binder _ hlive hfirst hsecond =>
          rw [if_neg hlive]
          obtain rfl := (ih hf).1 hfirst
          obtain rfl := (ih hrenamed).1 hsecond
          rfl
      · intro h
        subst h
        split
        · next hlive => exact .hidden q hlive
        · next hlive => exact .binder q hlive ((ih hf).2 rfl) ((ih hrenamed).2 rfl)
    · have hpart : ∀ f ∈ e.parts, f.depth ≤ n :=
        fun f hf => Nat.le_of_lt_succ (Nat.lt_of_lt_of_le (depth_lt_of_mem_parts hf) hn)
      rw [he.substAux_eq]
      constructor
      · intro h
        cases h with
        | var => exact he.elim
        | rigid _ hparts => rw [List.map_congr_left fun f hf => (ih (hpart f hf)).1 (hparts f hf)]
        | hidden | binder => exact he.elim
      · rintro rfl
        exact .rigid he fun f hf => (ih (hpart f hf)).2 rfl

/-- **Variables for variables keep the shape of an expression.**

* A substitution of variables leaves at every position the form that was there, with its operator,
  its number of parts, the sorts of its binders and its depth, and adds no position. In particular
  so does every list of pairs of variables that is read as a renaming.
* So whatever a substitution puts for the variables, below a binder its second pass goes through a
  tree that is no larger than the body.
* Hence substitution by rules, without a bound, comes to an end for every expression, with the
  result of the bounded recursion. -/
theorem subst_shape (s : Subst) (e : Expr) :
    (s.IsRenaming → ∀ pos, ((e.subst s).at? pos).map (fun f => (f.head, f.parts.length, f.depth)) =
      (e.at? pos).map fun f => (f.head, f.parts.length, f.depth)) ∧
    (∀ ps, SameShape (e.subst (.ofRenaming ps)) e) ∧
    (∀ bs body first, Substitutes (s.freshened bs body).2 body first →
      SameShape (first.getD body) body ∧ (first.getD body).size ≤ body.size) ∧
    ∀ r, Substitutes s e r ↔ r = e.subst? s := by
  refine ⟨fun hs pos => ?_, fun ps => sameShape_subst (isRenaming_ofRenaming ps) e,
    fun bs body first hfirst => ?_, fun r => ?_⟩
  · have hpos := (sameShape_subst hs e).at? pos
    generalize (e.subst s).at? pos = a at hpos ⊢
    generalize e.at? pos = b at hpos ⊢
    cases hpos with
    | none => rfl
    | some h => rw [Option.map_some, Option.map_some, h.head_eq, h.depth_eq, h.parts.length_eq]
  · obtain rfl := (substitutes_iff (Nat.le_refl _)).1 hfirst
    have hshape := sameShape_subst (s.freshened_isRenaming bs body) body
    exact ⟨hshape, Nat.le_of_eq hshape.size_eq⟩
  · exact substitutes_iff (Nat.le_refl _)

end Expr

/-- The new variables have the names of the binders, and the new name of the outer binder is that of
an inner one. -/
def Clash.renaming : Subst := .ofRenaming [(y, i), (z, i₀)]

theorem Expr.subst_shape_clash :
    Clash.renaming.IsRenaming ∧
    ((Clash.formula.subst Clash.renaming).at? [0, 1]).map
      (fun f => (f.head, f.parts.length, f.depth)) =
      some (.quant .ex [.int, .bool], 1, 4) ∧
    Clash.formula.subst? Clash.renaming ≠ none ∧
    Expr.Substitutes Clash.renaming Clash.formula (Clash.formula.subst? Clash.renaming) :=
  ⟨isRenaming_ofRenaming _,
    ((subst_shape Clash.renaming Clash.formula).1 (isRenaming_ofRenaming _) [0, 1]).trans
    (by decide), by decide, ((subst_shape Clash.renaming Clash.formula).2.2.2 _).2 rfl⟩

end Cutpoint
