import Cutpoint.Proofs.Smt.Symbol

/-!
# What a term declares

* `Smt.Somewhere P bound e t`: in the term `t` of `e`, which stands below binders of the names
  `bound`, the term of a part of `e` is written that satisfies `P`. Parts that are not written are
  passed over;
* `Smt.Unbound v`, `Smt.Measures ty`: the part is the variable `v` outside the scope of binders of
  its name; it is the length of an array of `ty`;
* `Smt.declares_of_encode`: the encoder adds to its tables what is unbound and what is measured in
  the term that it writes, and nothing else;
* `Smt.symbol?_injective`, `Smt.lengthName_injective`: different names have different symbols,
  different arrays different length functions.
-/

set_option autoImplicit false

namespace Cutpoint.Smt

/-! ## Names -/

/-- Different names have different symbols. -/
theorem symbol?_injective {x y s : String} (hx : symbol? x = some s)
    (hy : symbol? y = some s) : x = y := by
  -- a simple symbol does not start with a bar
  have hmixed : ∀ {z w : String}, isSimple z = true → z.toList ≠ '|' :: (w.toList ++ ['|']) := by
    intro z w hz hbar
    obtain ⟨c, cs, hlist, -, hchars, -⟩ := isSimple_eq_true hz
    obtain ⟨rfl, -⟩ := List.cons.inj (hlist.symm.trans hbar)
    have hc := hchars '|' List.mem_cons_self
    revert hc
    decide
  rcases symbol?_cases hx with ⟨hsx, rfl⟩ | ⟨-, hbx⟩
  · rcases symbol?_cases hy with ⟨-, rfl⟩ | ⟨-, hby⟩
    · rfl
    · exact absurd hby (hmixed hsx)
  · rcases symbol?_cases hy with ⟨hsy, rfl⟩ | ⟨-, hby⟩
    · exact absurd hbx (hmixed hsy)
    · have hlist := List.append_cancel_right (List.cons.inj (hbx.symm.trans hby)).2
      exact String.toList_inj.1 hlist

theorem sortName_injective {t u : Ty} (h : sortName t = sortName u) : t = u := by
  -- the names of the three forms of sorts start with different letters
  have hint : (sortName .int).toList = ['i', 'n', 't'] := rfl
  have hbool : (sortName .bool).toList = ['b', 'o', 'o', 'l'] := rfl
  have harray : ∀ v, (sortName (.array v)).toList = ['a', 'r', 'r', '_'] ++
      (sortName v).toList := by
    intro v
    rw [sortName, String.toList_append]
    rfl
  induction t generalizing u with
  | int =>
    have hlist := congrArg String.toList h
    cases u with
    | int => rfl
    | bool | array => simp [hint, hbool, harray] at hlist
  | bool =>
    have hlist := congrArg String.toList h
    cases u with
    | bool => rfl
    | int | array => simp [hint, hbool, harray] at hlist
  | array t ih =>
    have hlist := congrArg String.toList h
    cases u with
    | int | bool => simp [hint, hbool, harray] at hlist
    | array u =>
      rw [harray, harray] at hlist
      rw [ih (String.toList_inj.1 (List.append_cancel_left hlist))]

theorem lengthName_injective {t u : Ty} (h : lengthName t = lengthName u) : t = u := by
  have hlist := congrArg String.toList h
  rw [toList_lengthName, toList_lengthName] at hlist
  exact sortName_injective (String.toList_inj.1 (List.append_cancel_left hlist))

/-! ## Tables -/

namespace Table
variable {t : Table} {k x : String} {ty : Ty}

/-- The keys ascend. -/
def Sorted (t : Table) : Prop := t.Pairwise fun p q => p.1 < q.1

theorem find?_cons (k x : String) (ty : Ty) (t : Table) :
    Table.find? ((k, ty) :: t) x = if k = x then some ty else t.find? x := by
  unfold find?
  by_cases h : k = x <;> simp [h]

theorem find?_insert (t : Table) (k x : String) (ty : Ty) :
    (t.insert k ty).find? x = if k = x then some ty else t.find? x := by
  induction t with
  | nil => exact find?_cons k x ty []
  | cons p t ih =>
    obtain ⟨l, u⟩ := p
    unfold insert
    split
    · next hkl =>
      subst hkl
      rw [find?_cons, find?_cons]
      split <;> rfl
    · next hkl =>
      split
      · exact find?_cons k x ty _
      · rw [find?_cons, ih, find?_cons]
        by_cases hkx : k = x
        · subst hkx
          rw [if_neg (Ne.symm hkl), if_pos rfl, if_pos rfl]
        · rw [if_neg hkx, if_neg hkx]

theorem mem_insert {p : String × Ty} (h : p ∈ t.insert k ty) : p.1 = k ∨ p ∈ t := by
  induction t with
  | nil => exact .inl (congrArg Prod.fst (List.mem_singleton.1 h))
  | cons q t ih =>
    obtain ⟨l, u⟩ := q
    unfold insert at h
    split at h
    · rcases List.mem_cons.1 h with rfl | h
      · exact .inl rfl
      · exact .inr (List.mem_cons_of_mem _ h)
    · split at h
      · rcases List.mem_cons.1 h with rfl | h
        · exact .inl rfl
        · exact .inr h
      · rcases List.mem_cons.1 h with rfl | h
        · exact .inr List.mem_cons_self
        · exact (ih h).imp_right (List.mem_cons_of_mem _)

theorem Sorted.insert (h : t.Sorted) (k : String) (ty : Ty) : (t.insert k ty).Sorted := by
  induction t with
  | nil => exact List.pairwise_singleton _ _
  | cons p t ih =>
    obtain ⟨l, u⟩ := p
    obtain ⟨hl, ht⟩ := List.pairwise_cons.1 h
    unfold Table.insert
    split
    · next hkl =>
      subst hkl
      exact List.pairwise_cons.2 ⟨hl, ht⟩
    · next hkl =>
      split
      · next hlt =>
        refine List.pairwise_cons.2 ⟨fun q hq => ?_, h⟩
        rcases List.mem_cons.1 hq with rfl | hq
        · exact hlt
        · exact String.lt_trans hlt (hl q hq)
      · next hlt =>
        refine List.pairwise_cons.2 ⟨fun q hq => ?_, ih ht⟩
        rcases mem_insert hq with hq | hq
        · rw [hq]
          rcases Std.lt_trichotomy k l with hlt' | heq | hgt
          · exact absurd hlt' hlt
          · exact absurd heq hkl
          · exact hgt
        · exact hl q hq

theorem Sorted.nodup (h : t.Sorted) : (t.map Prod.fst).Nodup := by
  refine List.pairwise_map.2 (List.Pairwise.imp ?_ h)
  intro p q hlt heq
  exact String.lt_irrefl _ (heq ▸ hlt)

theorem mem_of_find? (h : t.find? x = some ty) : (x, ty) ∈ t := by
  unfold find? at h
  obtain ⟨⟨k, u⟩, hp, rfl⟩ := Option.map_eq_some_iff.1 h
  have hk : k = x := by simpa using List.find?_some hp
  exact hk ▸ List.mem_of_find?_eq_some hp

theorem Sorted.mem_iff (h : t.Sorted) : (x, ty) ∈ t ↔ t.find? x = some ty := by
  refine ⟨fun hmem => ?_, mem_of_find?⟩
  induction t with
  | nil => exact absurd hmem List.not_mem_nil
  | cons p t ih =>
    obtain ⟨l, u⟩ := p
    obtain ⟨hl, ht⟩ := List.pairwise_cons.1 h
    rw [find?_cons]
    rcases List.mem_cons.1 hmem with heq | hmem
    · obtain ⟨rfl, rfl⟩ := Prod.mk.inj heq
      exact if_pos rfl
    · have hne : l ≠ x := by
        rintro rfl
        exact String.lt_irrefl l (hl _ hmem)
      rw [if_neg hne, ih ht hmem]

/-- The entries are length functions with the arrays that they measure. -/
def OfLengths (t : Table) : Prop :=
  ∀ k ty, t.find? k = some ty → ∃ u, k = lengthName u ∧ ty = .array u

end Table

/-! ## Parts of terms -/

/-- In the term `t` of an expression, below binders of the names `bound`, the term of a part is
written that satisfies `P`, which is given the names of the binders around the part. Not written are
the array, index and value of an update whose length is taken, and the length of any other
update. -/
inductive Somewhere (P : List String → Expr → SExp → Prop) : List String → Expr → SExp → Prop where
  | here {bound : List String} {e : Expr} {t : SExp} (h : P bound e t) : Somewhere P bound e t
  | operand {bound : List String} {op : UnOp} {e : Expr} {t : SExp} (h : Somewhere P bound e t) :
    Somewhere P bound (.unary op e) (unaryTerm op t)
  | left {bound : List String} {op : BinOp} {l r : Expr} {t u : SExp} (h : Somewhere P bound l t) :
    Somewhere P bound (.binary op l r) (binaryTerm op t u)
  | right {bound : List String} {op : BinOp} {l r : Expr} {t u : SExp} (h : Somewhere P bound r u) :
    Somewhere P bound (.binary op l r) (binaryTerm op t u)
  | array {bound : List String} {a i : Expr} {t u : SExp} (h : Somewhere P bound a t) :
    Somewhere P bound (.select a i) (.app "select" [t, u])
  | index {bound : List String} {a i : Expr} {t u : SExp} (h : Somewhere P bound i u) :
    Somewhere P bound (.select a i) (.app "select" [t, u])
  | carried {bound : List String} {a i v l : Expr} {t : SExp} (h : Somewhere P bound l t) :
    Somewhere P bound (.length (.update a i v l)) t
  | measured {bound : List String} {a : Expr} {f : String} {t : SExp} (hsteady : a.Steady)
      (h : Somewhere P bound a t) : Somewhere P bound (.length a) (.app f [t])
  | updated {bound : List String} {a i v l : Expr} {t u w : SExp} (h : Somewhere P bound a t) :
    Somewhere P bound (.update a i v l) (.app "store" [t, u, w])
  | position {bound : List String} {a i v l : Expr} {t u w : SExp} (h : Somewhere P bound i u) :
    Somewhere P bound (.update a i v l) (.app "store" [t, u, w])
  | value {bound : List String} {a i v l : Expr} {t u w : SExp} (h : Somewhere P bound v w) :
    Somewhere P bound (.update a i v l) (.app "store" [t, u, w])
  | arg {bound : List String} {p s : String} {es : List Expr} {ts : List SExp} {e : Expr}
      {t : SExp} (harg : (e, t) ∈ es.zip ts) (h : Somewhere P bound e t) :
      Somewhere P bound (.apply p es) (.app s ts)
  | quantNil {bound : List String} {q : Quantifier} {e : Expr} {t : SExp}
      (h : Somewhere P bound e t) : Somewhere P bound (.quant q [] e) t
  | body {bound : List String} {q : Quantifier} {bs : List Var} {e : Expr} {vs : List SExp}
      {t : SExp} (hne : bs ≠ []) (h : Somewhere P (Var.names bs ++ bound) e t) :
      Somewhere P bound (.quant q bs e) (.app q.word [.list vs, t])

/-- The part is the variable `v`, which no binder around it binds. -/
def Unbound (v : Var) (scope : List String) (e : Expr) (_ : SExp) : Prop :=
  e = .var v ∧ v.name ∉ scope

/-- The part is the length of an array of `ty`, written with the length function of these arrays. -/
def Measures (ty : Ty) (_ : List String) (e : Expr) (t : SExp) : Prop :=
  ∃ a u, e = .length a ∧ a.Steady ∧ a.type? = some (.array ty) ∧ t = .app (lengthName ty) [u]

theorem unaryTerm_inj {op : UnOp} {t u : SExp} (h : unaryTerm op t = unaryTerm op u) : t = u := by
  cases op <;> simpa [unaryTerm, SExp.app] using h

theorem binaryTerm_inj {op : BinOp} {t u t' u' : SExp}
    (h : binaryTerm op t u = binaryTerm op t' u') : t = t' ∧ u = u' := by
  cases op <;> simpa [binaryTerm, SExp.app] using h

section Inversion
variable {P : List String → Expr → SExp → Prop} {bound : List String} {t u w : SExp}

theorem somewhere_unary {op : UnOp} {e : Expr} :
    Somewhere P bound (.unary op e) (unaryTerm op t) ↔
      P bound (.unary op e) (unaryTerm op t) ∨ Somewhere P bound e t := by
  refine ⟨fun h => ?_, fun h => h.elim .here .operand⟩
  generalize hT : unaryTerm op t = T at h
  cases h with
  | here h => exact .inl h
  | operand h => exact .inr (unaryTerm_inj hT ▸ h)

theorem somewhere_binary {op : BinOp} {l r : Expr} :
    Somewhere P bound (.binary op l r) (binaryTerm op t u) ↔
    P bound (.binary op l r) (binaryTerm op t u) ∨ Somewhere P bound l t ∨
    Somewhere P bound r u := by
  refine ⟨fun h => ?_, fun h => h.elim .here (Or.elim · .left .right)⟩
  generalize hT : binaryTerm op t u = T at h
  cases h with
  | here h => exact .inl h
  | left h => exact .inr (.inl ((binaryTerm_inj hT).1 ▸ h))
  | right h => exact .inr (.inr ((binaryTerm_inj hT).2 ▸ h))

theorem somewhere_select {a i : Expr} :
    Somewhere P bound (.select a i) (.app "select" [t, u]) ↔
      P bound (.select a i) (.app "select" [t, u]) ∨ Somewhere P bound a t ∨
      Somewhere P bound i u := by
  refine ⟨fun h => ?_, fun h => h.elim .here (Or.elim · .array .index)⟩
  cases h with
  | here h => exact .inl h
  | array h => exact .inr (.inl h)
  | index h => exact .inr (.inr h)

theorem somewhere_lengthUpdate {a i v l : Expr} :
    Somewhere P bound (.length (.update a i v l)) t ↔
      P bound (.length (.update a i v l)) t ∨ Somewhere P bound l t := by
  refine ⟨fun h => ?_, fun h => h.elim .here .carried⟩
  cases h with
  | here h => exact .inl h
  | carried h => exact .inr h
  | measured hsteady => exact absurd rfl (hsteady a i v l)

theorem somewhere_length {a : Expr} {f : String} (hsteady : a.Steady) :
    Somewhere P bound (.length a) (.app f [t]) ↔
    P bound (.length a) (.app f [t]) ∨ Somewhere P bound a t := by
  refine ⟨fun h => ?_, fun h => h.elim .here (.measured hsteady)⟩
  cases h with
  | here h => exact .inl h
  | carried => exact absurd rfl (hsteady _ _ _ _)
  | measured _ h => exact .inr h

theorem somewhere_update {a i v l : Expr} :
    Somewhere P bound (.update a i v l) (.app "store" [t, u, w]) ↔
    P bound (.update a i v l) (.app "store" [t, u, w]) ∨ Somewhere P bound a t ∨
    Somewhere P bound i u ∨ Somewhere P bound v w := by
  refine ⟨fun h => ?_, fun h => h.elim .here (Or.elim · .updated (Or.elim · .position .value))⟩
  cases h with
  | here h => exact .inl h
  | updated h => exact .inr (.inl h)
  | position h => exact .inr (.inr (.inl h))
  | value h => exact .inr (.inr (.inr h))

theorem somewhere_apply {p s : String} {es : List Expr} {ts : List SExp} :
    Somewhere P bound (.apply p es) (if ts.isEmpty then .atom s else .app s ts) ↔
    P bound (.apply p es) (if ts.isEmpty then .atom s else .app s ts) ∨
    ∃ x ∈ es.zip ts, Somewhere P bound x.1 x.2 := by
  constructor
  · intro h
    generalize hT : (if ts.isEmpty then SExp.atom s else .app s ts) = T at h
    cases h with
    | here h => exact .inl h
    | @arg _ _ _ _ us e t harg h =>
      split at hT
      · cases hT
      · obtain ⟨-, rfl⟩ : s = _ ∧ ts = us := by simpa [SExp.app] using hT
        exact .inr ⟨(e, t), harg, h⟩
  · rintro (h | ⟨⟨e, t⟩, harg, h⟩)
    · exact .here h
    · have hne : ts.isEmpty = false := by
        cases ts with
        | nil => simp at harg
        | cons => rfl
      rw [if_neg (by simp [hne])]
      exact .arg harg h

theorem somewhere_quantNil {q : Quantifier} {e : Expr} :
    Somewhere P bound (.quant q [] e) t ↔ P bound (.quant q [] e) t ∨ Somewhere P bound e t := by
  refine ⟨fun h => ?_, fun h => h.elim .here .quantNil⟩
  cases h with
  | here h => exact .inl h
  | quantNil h => exact .inr h
  | body hne => exact absurd rfl hne

theorem somewhere_quant {q : Quantifier} {bs : List Var} {e : Expr} {vs : List SExp}
    (hne : bs ≠ []) :
    Somewhere P bound (.quant q bs e) (.app q.word [.list vs, t]) ↔
      P bound (.quant q bs e) (.app q.word [.list vs, t]) ∨
      Somewhere P (Var.names bs ++ bound) e t := by
  refine ⟨fun h => ?_, fun h => h.elim .here (.body hne)⟩
  cases h with
  | here h => exact .inl h
  | quantNil => exact absurd rfl hne
  | body _ h => exact .inr h

end Inversion

/-! ## Declarations -/

/-- The tables have come to declare the variables of `P` and the length functions of `Q`, and
nothing else. -/
structure Declares (P : Var → Prop) (Q : Ty → Prop) (d d' : Decls) : Prop where
  consts : ∀ x ty, d'.consts.find? x = some ty ↔ d.consts.find? x = some ty ∨ P ⟨x, ty⟩
  lengths : d.lengths.OfLengths → ∀ k ty, d'.lengths.find? k = some ty ↔
    d.lengths.find? k = some ty ∨ ∃ u, Q u ∧ k = lengthName u ∧ ty = .array u
  constsSorted : d.consts.Sorted → d'.consts.Sorted
  lengthsSorted : d.lengths.Sorted → d'.lengths.Sorted

namespace Declares
variable {P P' : Var → Prop} {Q Q' : Ty → Prop} {d d' d'' : Decls}

theorem ofLengths (h : Declares P Q d d') (hd : d.lengths.OfLengths) : d'.lengths.OfLengths := by
  intro k ty hk
  rcases (h.lengths hd k ty).1 hk with hk | ⟨u, -, hk, hty⟩
  · exact hd k ty hk
  · exact ⟨u, hk, hty⟩

theorem none (hP : ∀ v, ¬ P v) (hQ : ∀ u, ¬ Q u) (d : Decls) : Declares P Q d d where
  consts _ _ := (or_iff_left (hP _)).symm
  lengths _ _ _ := (or_iff_left fun ⟨u, hu, _⟩ => hQ u hu).symm
  constsSorted h := h
  lengthsSorted h := h

theorem trans (h : Declares P Q d d') (h' : Declares P' Q' d' d'') :
    Declares (fun v => P v ∨ P' v) (fun u => Q u ∨ Q' u) d d'' where
  consts x ty := by rw [h'.consts, h.consts, or_assoc]
  lengths hd k ty := by
    rw [h'.lengths (h.ofLengths hd), h.lengths hd, or_assoc, ← exists_or]
    refine or_congr_right (exists_congr fun u => ?_)
    exact or_and_right.symm
  constsSorted hd := h'.constsSorted (h.constsSorted hd)
  lengthsSorted hd := h'.lengthsSorted (h.lengthsSorted hd)

theorem congr (h : Declares P Q d d') (hP : ∀ v, P' v ↔ P v) (hQ : ∀ u, Q' u ↔ Q u) :
    Declares P' Q' d d' where
  consts x ty := by rw [h.consts, hP]
  lengths hd k ty := by
    rw [h.lengths hd]
    exact or_congr_right (exists_congr fun u => and_congr_left fun _ => (hQ u).symm)
  constsSorted := h.constsSorted
  lengthsSorted := h.lengthsSorted

end Declares

section Encode
variable {bound : List String} {d d' : Decls} {t : SExp}

/-- A variable that is not bound is declared, unless it has been. -/
theorem declares_of_encodeVar {v : Var} (h : (encodeVar bound v).run d = .ok (t, d')) :
    Declares (fun w => w = v ∧ v.name ∉ bound) (fun _ => False) d d' := by
  obtain ⟨s, d₁, hs, h⟩ := run_bind_eq_ok.1 h
  obtain ⟨-, rfl⟩ := run_lift_eq_ok.1 hs
  split at h
  · next hbound =>
    obtain ⟨-, rfl⟩ := run_pure_eq_ok.1 h
    exact .none (fun w hw => hw.2 (by simpa using hbound)) (fun _ => not_false) d
  · next hbound =>
    have hv : v.name ∉ bound := by simpa using hbound
    obtain ⟨decls, d₂, hget, h⟩ := run_bind_eq_ok.1 h
    obtain ⟨rfl, rfl⟩ : d = decls ∧ d = d₂ := run_pure_eq_ok.1 hget
    dsimp only at h
    split at h
    · next hnew =>
      obtain ⟨⟨⟩, d₃, hset, h⟩ := run_bind_eq_ok.1 h
      obtain ⟨-, rfl⟩ := run_pure_eq_ok.1 h
      obtain rfl : { d with consts := d.consts.insert v.name v.ty } = d₃ :=
        congrArg Prod.snd (Except.ok.inj hset)
      refine ⟨fun x ty => ?_, fun _ k ty => by simp, fun hd => hd.insert _ _, fun hd => hd⟩
      rw [Table.find?_insert]
      by_cases hx : v.name = x
      · subst hx
        have hself : (⟨v.name, ty⟩ : Var) = v ↔ v.ty = ty := by
          cases v
          simp [eq_comm]
        rw [if_pos rfl, hnew]
        simp [hv, hself]
      · rw [if_neg hx]
        refine (or_iff_left fun hw => hx ?_).symm
        rw [← hw.1]
    · next ty hold =>
      split at h
      · next hty =>
        obtain ⟨-, rfl⟩ := run_pure_eq_ok.1 h
        refine ⟨fun x u => (or_iff_left_of_imp ?_).symm, fun _ k ty => by simp, fun hd => hd,
          fun hd => hd⟩
        rintro ⟨rfl, -⟩
        exact hold.trans (congrArg some hty)
      · obtain ⟨_, d₃, hthrow, -⟩ := run_bind_eq_ok.1 h
        cases hthrow

/-- The array of a length has been written when its length function is declared. -/
theorem declares_of_encodeLength {a : Expr} {x : Encoder SExp}
    (h : (encodeLength a x).run d = .ok (t, d')) :
    ∃ ty u d₁, a.type? = some (.array ty) ∧ x.run d = .ok (u, d₁) ∧ t = .app (lengthName ty) [u] ∧
      Declares (fun _ => False) (· = ty) d₁ d' := by
  unfold encodeLength at h
  split at h
  · cases h
  · next ty hty =>
    obtain ⟨u, d₁, hu, h⟩ := run_bind_eq_ok.1 h
    obtain ⟨⟨⟩, d₂, hset, h⟩ := run_bind_eq_ok.1 h
    obtain ⟨rfl, rfl⟩ := run_pure_eq_ok.1 h
    obtain rfl : { d₁ with lengths := d₁.lengths.insert (lengthName ty) (.array ty) } = d₂ :=
      congrArg Prod.snd (Except.ok.inj hset)
    refine ⟨ty, u, d₁, hty, hu, rfl, fun x ty => by simp, fun hd k u => ?_, fun hd => hd,
      fun hd => hd.insert _ _⟩
    rw [Table.find?_insert]
    by_cases hk : lengthName ty = k
    · subst hk
      -- an earlier entry of the name is for the same arrays
      have hold : d₁.lengths.find? (lengthName ty) = some u → u = .array ty := by
        intro hfind
        obtain ⟨v, hv, rfl⟩ := hd _ _ hfind
        rw [lengthName_injective hv]
      rw [if_pos rfl]
      simp only [Option.some.injEq, exists_eq_left, true_and]
      exact ⟨fun h => .inr h.symm, fun h => (h.elim hold id).symm⟩
    · rw [if_neg hk]
      refine (or_iff_left ?_).symm
      rintro ⟨u, rfl, hu, -⟩
      exact hk hu.symm
  · cases h

/-- The variables and length functions that are written in the terms of a list are those written in
one of them. -/
theorem declares_of_encodeAll {es : List Expr} {ts : List SExp}
    (h : (encodeAll bound es).run d = .ok (ts, d'))
    (ih : ∀ e ∈ es, ∀ {d d' t}, (encode bound e).run d = .ok (t, d') → Declares
      (fun v => Somewhere (Unbound v) bound e t) (fun u => Somewhere (Measures u) bound e t) d d') :
    Declares (fun v => ∃ x ∈ es.zip ts, Somewhere (Unbound v) bound x.1 x.2)
      (fun u => ∃ x ∈ es.zip ts, Somewhere (Measures u) bound x.1 x.2) d d' := by
  induction es generalizing d ts with
  | nil =>
    obtain ⟨rfl, rfl⟩ := run_pure_eq_ok.1 h
    exact .none (by simp) (by simp) d
  | cons e es ihs =>
    obtain ⟨t, d₁, ht, h⟩ := run_bind_eq_ok.1 h
    obtain ⟨us, d₂, hus, h⟩ := run_bind_eq_ok.1 h
    obtain ⟨rfl, rfl⟩ := run_pure_eq_ok.1 h
    have hhead := ih e List.mem_cons_self ht
    have htail := ihs hus fun f hf => ih f (List.mem_cons_of_mem _ hf)
    refine (hhead.trans htail).congr ?_ ?_ <;> simp

/-- The encoder declares the variables that are unbound in the term that it writes, and the length
functions that are applied in it. -/
theorem declares_of_encode {e : Expr} (h : (encode bound e).run d = .ok (t, d')) :
    Declares (fun v => Somewhere (Unbound v) bound e t)
      (fun u => Somewhere (Measures u) bound e t) d d' := by
  induction e using Expr.inductShown generalizing bound d d' t with
  | bool b | int n =>
    obtain ⟨rfl, rfl⟩ := run_pure_eq_ok.1 h
    refine .none ?_ ?_ d
    · rintro v ⟨⟨hv, -⟩⟩
      cases hv
    · rintro u ⟨⟨a, w, ha, -⟩⟩
      cases ha
  | var v =>
    refine (declares_of_encodeVar h).congr (fun w => ?_) fun u => ?_
    · refine ⟨fun hw => ?_, fun hw => .here ⟨hw.1 ▸ rfl, hw.1 ▸ hw.2⟩⟩
      cases hw with
      | here hw =>
        obtain ⟨hv, hbound⟩ := hw
        cases hv
        exact ⟨rfl, hbound⟩
    · refine iff_of_false ?_ not_false
      rintro ⟨⟨a, w, ha, -⟩⟩
      cases ha
  | unary op e ih =>
    obtain ⟨u, d₁, hu, h⟩ := run_bind_eq_ok.1 h
    obtain ⟨rfl, rfl⟩ := run_pure_eq_ok.1 h
    refine (ih hu).congr ?_ ?_ <;> simp [somewhere_unary, Unbound, Measures]
  | binary op l r hl hr =>
    obtain ⟨u, d₁, hu, h⟩ := run_bind_eq_ok.1 h
    obtain ⟨w, d₂, hw, h⟩ := run_bind_eq_ok.1 h
    obtain ⟨rfl, rfl⟩ := run_pure_eq_ok.1 h
    refine ((hl hu).trans (hr hw)).congr ?_ ?_ <;> simp [somewhere_binary, Unbound, Measures]
  | select a i ha hi =>
    obtain ⟨u, d₁, hu, h⟩ := run_bind_eq_ok.1 h
    obtain ⟨w, d₂, hw, h⟩ := run_bind_eq_ok.1 h
    obtain ⟨rfl, rfl⟩ := run_pure_eq_ok.1 h
    refine ((ha hu).trans (hi hw)).congr ?_ ?_ <;> simp [somewhere_select, Unbound, Measures]
  | lengthUpdate a i v l hl =>
    refine (hl h).congr (fun v => ?_) fun u => ?_
    · simp [somewhere_lengthUpdate, Unbound]
    · rw [somewhere_lengthUpdate, or_iff_right]
      rintro ⟨b, w, hb, hsteady, -⟩
      obtain rfl := Expr.length.inj hb
      exact hsteady a i v l rfl
  | length a hsteady ha =>
    rw [encode_length hsteady] at h
    obtain ⟨ty, u, d₁, hty, hu, rfl, hlength⟩ := declares_of_encodeLength h
    refine ((ha hu).trans hlength).congr (fun v => ?_) fun w => ?_
    · simp [somewhere_length hsteady, Unbound]
    · rw [somewhere_length hsteady, or_comm]
      refine or_congr_right ⟨?_, ?_⟩
      · rintro ⟨b, x, hb, -, hw, -⟩
        obtain rfl := Expr.length.inj hb
        simpa using hw.symm.trans hty
      · rintro rfl
        exact ⟨a, u, rfl, hsteady, hty, rfl⟩
  | update a i v l ha hi hv =>
    obtain ⟨u, d₁, hu, h⟩ := run_bind_eq_ok.1 h
    obtain ⟨w, d₂, hw, h⟩ := run_bind_eq_ok.1 h
    obtain ⟨x, d₃, hx, h⟩ := run_bind_eq_ok.1 h
    obtain ⟨rfl, rfl⟩ := run_pure_eq_ok.1 h
    refine ((ha hu).trans ((hi hw).trans (hv hx))).congr ?_ ?_ <;>
      simp [somewhere_update, Unbound, Measures]
  | apply p es ih =>
    obtain ⟨s, d₁, hs, h⟩ := run_bind_eq_ok.1 h
    obtain ⟨-, rfl⟩ := run_lift_eq_ok.1 hs
    obtain ⟨ts, d₂, hts, h⟩ := run_bind_eq_ok.1 h
    obtain ⟨rfl, rfl⟩ := run_pure_eq_ok.1 h
    refine (declares_of_encodeAll hts fun e he => ih e he).congr (fun v => ?_) fun u => ?_
    · rw [somewhere_apply, or_iff_right]
      rintro ⟨hv, -⟩
      cases hv
    · rw [somewhere_apply, or_iff_right]
      rintro ⟨a, w, ha, -⟩
      cases ha
  | quant q bs e ih =>
    have hcase : (if bs.isEmpty then encode bound e
      else do
        let vs ← binders bs
        return .app q.word [.list vs, ← encode (Var.names bs ++ bound) e] : Encoder SExp).run d =
          .ok (t, d') := h
    split at hcase
    · next hnil =>
      obtain rfl := List.isEmpty_iff.1 hnil
      refine (ih hcase).congr ?_ ?_ <;> simp [somewhere_quantNil, Unbound, Measures]
    · next hne =>
      have hne : bs ≠ [] := fun hnil => hne (List.isEmpty_iff.2 hnil)
      obtain ⟨vs, d₁, hvs, hcase⟩ := run_bind_eq_ok.1 hcase
      obtain ⟨-, rfl⟩ := run_lift_eq_ok.1 hvs
      obtain ⟨u, d₂, hu, hcase⟩ := run_bind_eq_ok.1 hcase
      obtain ⟨rfl, rfl⟩ := run_pure_eq_ok.1 hcase
      refine (ih hu).congr ?_ ?_ <;> simp [somewhere_quant hne, Unbound, Measures]

end Encode

end Cutpoint.Smt
