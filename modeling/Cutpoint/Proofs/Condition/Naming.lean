import Cutpoint.Condition.Weakest
import Cutpoint.Proofs.Expr.Fresh

/-!
# Taking names

* `Naming.Gives x N a N'`: with the names `N` in use the computation gives `a`, and then the names
  `N'` are in use;
* `Naming.Fails x N e`: it stops with the fault `e`;
* `Naming.New ws N N'`: the variables `ws` were named between `N` and `N'`, so that their names are
  new and all different.
-/

set_option autoImplicit false

namespace Cutpoint

/-! ## Results -/

namespace Naming
variable {α β : Type}

/-- The computation gives a result, and changes the names in use. -/
def Gives (x : Naming α) (N : Names) (a : α) (N' : Names) : Prop := x.run N = (.ok a, N')

theorem gives_pure (a : α) (N : Names) : Gives (pure a) N a N := rfl

theorem Gives.bind {x : Naming α} {f : α → Naming β} {N N' N'' : Names} {a : α} {b : β}
    (hx : Gives x N a N') (hf : Gives (f a) N' b N'') : Gives (x >>= f) N b N'' := by
  unfold Gives at *
  rw [← hf]
  change (match x.run N with
    | (r, M) => (ExceptT.bindCont f r : StateM Names (Except Fault β)) M) = _
  rw [hx]
  rfl

/-- A result of two computations in a row comes from a result of the first. -/
theorem Gives.of_bind {x : Naming α} {f : α → Naming β} {N N'' : Names} {b : β}
    (h : Gives (x >>= f) N b N'') : ∃ a N', Gives x N a N' ∧ Gives (f a) N' b N'' := by
  unfold Gives at *
  change (match x.run N with
    | (r, M) => (ExceptT.bindCont f r : StateM Names (Except Fault β)) M) = _ at h
  rcases hx : x.run N with ⟨r, M⟩
  rw [hx] at h
  cases r with
  | error e =>
    change (Except.error e, M) = _ at h
    cases h
  | ok a => exact ⟨a, M, rfl, h⟩

theorem Gives.unique {x : Naming α} {N N' N'' : Names} {a b : α} (ha : Gives x N a N')
    (hb : Gives x N b N'') : a = b ∧ N' = N'' := by
  unfold Gives at *
  rw [ha] at hb
  cases hb
  exact ⟨rfl, rfl⟩

theorem gives_reserve (names N : Names) : Gives (reserve names) N () (names ++ N) := rfl

theorem gives_fresh (v : Var) (N : Names) : Gives (fresh v) N (v.fresh N) ((v.fresh N).name :: N) :=
  rfl

theorem gives_ofExcept {x : Except Fault α} {a : α} (h : x = .ok a)
    (N : Names) : Gives (ofExcept x) N a N := by
  rw [h]
  rfl

theorem Gives.of_ofExcept {x : Except Fault α} {N N' : Names} {a : α}
    (h : Gives (ofExcept x) N a N') : x = .ok a ∧ N' = N := by
  change (x, N) = _ at h
  cases h
  exact ⟨rfl, rfl⟩

/-! ## Faults -/

/-- The computation stops with a fault. -/
def Fails (x : Naming α) (N : Names) (e : Fault) : Prop := (x.run N).1 = .error e

theorem gives_or_fails (x : Naming α) (N : Names) :
    (∃ a N', Gives x N a N') ∨ ∃ e, Fails x N e := by
  rcases hx : x.run N with ⟨r, N'⟩
  cases r with
  | ok a => exact .inl ⟨a, N', hx⟩
  | error e => exact .inr ⟨e, congrArg Prod.fst hx⟩

theorem Gives.not_fails {x : Naming α} {N N' : Names} {a : α} (h : Gives x N a N')
    (e : Fault) : ¬ Fails x N e := by
  unfold Gives at h
  unfold Fails
  rw [h]
  simp

/-- Where the first of two computations gives a result, a fault comes from the second. -/
theorem Gives.fails_bind {x : Naming α} {f : α → Naming β} {N N' : Names} {a : α}
    (h : Gives x N a N') {e : Fault} : Fails (x >>= f) N e ↔ Fails (f a) N' e := by
  unfold Gives at h
  change (match x.run N with
    | (r, M) => (ExceptT.bindCont f r : StateM Names (Except Fault β)) M).1 = _ ↔ _
  rw [h]
  rfl

theorem Fails.bind {x : Naming α} {f : α → Naming β} {N : Names} {e : Fault} (h : Fails x N e) :
    Fails (x >>= f) N e := by
  unfold Fails at *
  change (match x.run N with
    | (r, M) => (ExceptT.bindCont f r : StateM Names (Except Fault β)) M).1 = _
  rcases hx : x.run N with ⟨r, M⟩
  rw [hx] at h
  cases h
  rfl

/-- What is made of a result causes no fault. -/
theorem fails_bind_pure {x : Naming α} {g : α → β} {N : Names} {e : Fault} :
    Fails (x >>= fun a => pure (g a)) N e ↔ Fails x N e := by
  rcases gives_or_fails x N with ⟨a, N', h⟩ | ⟨e', h⟩
  · rw [h.fails_bind]
    exact iff_of_false ((gives_pure _ _).not_fails e) (h.not_fails e)
  · refine ⟨fun he => ?_, Fails.bind⟩
    obtain rfl : e' = e := Except.error.inj (h.bind.symm.trans he)
    exact h

/-! ## New names -/

/-- The variables have new and different names, which are in use from then on. -/
structure New (ws : List Var) (N N' : Names) : Prop where
  nodup : (Var.names ws).Nodup
  not_mem : ∀ x ∈ Var.names ws, x ∉ N
  mem : ∀ x ∈ Var.names ws, x ∈ N'
  grows : ∀ x ∈ N, x ∈ N'
  dollar : ∀ x ∈ Var.names ws, '$' ∈ x.toList

theorem New.nil {N N' : Names} (h : ∀ x ∈ N, x ∈ N') : New [] N N' :=
  ⟨List.nodup_nil, by simp [Var.names], by simp [Var.names], h, by simp [Var.names]⟩

theorem New.cons {N N' : Names} {ws : List Var} (v : Var) (h : New ws ((v.fresh N).name :: N) N') :
    New (v.fresh N :: ws) N N' := by
  have hsplit : ∀ x, x ∈ Var.names (v.fresh N :: ws) ↔ x = (v.fresh N).name ∨ x ∈ Var.names ws := by
    simp [Var.names]
  refine ⟨List.nodup_cons.2 ⟨fun hm => h.not_mem _ hm List.mem_cons_self, h.nodup⟩, ?_, ?_, ?_, ?_⟩
  · intro x hx hN
    rcases (hsplit x).1 hx with rfl | hx
    · exact v.fresh_name_not_mem N hN
    · exact h.not_mem x hx (List.mem_cons_of_mem _ hN)
  · intro x hx
    rcases (hsplit x).1 hx with rfl | hx
    · exact h.grows _ List.mem_cons_self
    · exact h.mem x hx
  · exact fun x hx => h.grows x (List.mem_cons_of_mem _ hx)
  · intro x hx
    rcases (hsplit x).1 hx with rfl | hx
    · exact v.dollar_mem_fresh N
    · exact h.dollar x hx

theorem New.mono {N M N' M' : Names} {ws : List Var} (h : New ws N N') (hN : ∀ x ∈ M, x ∈ N)
    (hN' : ∀ x ∈ N', x ∈ M') : New ws M M' :=
  ⟨h.nodup, fun x hx hM => h.not_mem x hx (hN x hM), fun x hx => hN' x (h.mem x hx),
    fun x hx => hN' x (h.grows x (hN x hx)), h.dollar⟩

theorem New.oneType {N N' : Names} {ws : List Var} (h : New ws N N') : OneType ws := by
  intro v hv w hw hname
  exact List.inj_on_of_nodup_map h.nodup hv hw hname

/-- Naming a list of variables always succeeds, and keeps their sorts. -/
theorem freshAll_gives (vs : List Var) (N : Names) :
    ∃ ws N', Gives (freshAll vs) N ws N' ∧ New ws N N' ∧ ws.map Var.ty = vs.map Var.ty := by
  induction vs generalizing N with
  | nil => exact ⟨[], N, rfl, .nil fun _ h => h, rfl⟩
  | cons v vs ih =>
    obtain ⟨ws, N', hws, hnew, hty⟩ := ih ((v.fresh N).name :: N)
    exact ⟨v.fresh N :: ws, N', (gives_fresh v N).bind (hws.bind rfl), hnew.cons v, by simp [hty]⟩

end Naming

end Cutpoint
