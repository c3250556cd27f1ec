import Cutpoint.Obligation
import Cutpoint.Proofs.Condition.Decrease

/-!
# What the obligations say

* `Program.mem_obligations`: the obligations of every basic path are among those of the program;
* `PathContext.obligations_eq_ok`: the obligations of a path are its conditions, or one that is
  never valid;
* `Procedure.Sound`: every basic path leads from the annotations at its start to what its end asks
  for, which is so if the obligations of the procedure are valid (`Program.sound_of_obligations`);
* `Procedure.Ranked`: every basic path to a loop head leads to smaller values of ranking functions,
  which is so if the obligations are valid and the procedure calls no other
  (`Program.ranked_of_obligations`).
-/

set_option autoImplicit false

namespace Cutpoint

/-! ## The list -/

namespace Program
variable {p : Program}

theorem mem_pathsObligations {f : Procedure} {paths : List BasicPath} {os : List Obligation}
    (h : p.pathsObligations f paths = .ok os) :
    ∀ path ∈ paths, ∃ c obs, PathContext.of p f path = .ok c ∧
      c.obligations = .ok obs ∧ ∀ o ∈ obs, o ∈ os := by
  induction paths generalizing os with
  | nil => simp
  | cons path paths ih =>
    rw [pathsObligations, bind_eq_ok] at h
    obtain ⟨obs, hobs, h⟩ := h
    rw [bind_eq_ok] at h
    obtain ⟨rest, hrest, h⟩ := h
    cases h
    rw [pathObligations, bind_eq_ok] at hobs
    obtain ⟨c, hc, hobs⟩ := hobs
    refine List.forall_mem_cons.2 ⟨⟨c, obs, hc, hobs, fun o ho => List.mem_append_left _ ho⟩,
      fun q hq => ?_⟩
    obtain ⟨c', obs', hc', hobs', hsub⟩ := ih hrest q hq
    exact ⟨c', obs', hc', hobs', fun o ho => List.mem_append_right _ (hsub o ho)⟩

theorem mem_proceduresObligations {fs : List Procedure} {os : List Obligation}
    (h : p.proceduresObligations fs = .ok os) :
    ∀ f ∈ fs, ∃ paths part, f.basicPaths = .ok paths ∧
      p.pathsObligations f paths = .ok part ∧ ∀ o ∈ part, o ∈ os := by
  induction fs generalizing os with
  | nil => simp
  | cons f fs ih =>
    rw [proceduresObligations, bind_eq_ok] at h
    obtain ⟨part, hpart, h⟩ := h
    rw [bind_eq_ok] at h
    obtain ⟨rest, hrest, h⟩ := h
    cases h
    rw [procedureObligations, bind_eq_ok] at hpart
    obtain ⟨paths, hpaths, hpart⟩ := hpart
    refine List.forall_mem_cons.2
      ⟨⟨paths, part, hpaths, hpart, fun o ho => List.mem_append_left _ ho⟩, fun g hg => ?_⟩
    obtain ⟨paths', part', hpaths', hpart', hsub⟩ := ih hrest g hg
    exact ⟨paths', part', hpaths', hpart', fun o ho => List.mem_append_right _ (hsub o ho)⟩

/-- A program with obligations is well-formed, and every basic path has its own among them. -/
theorem mem_obligations {os : List Obligation} (h : p.obligations = .ok os) :
    p.validate = .ok () ∧
    ∀ f ∈ p.procedures, f.WellFormed p → ∀ path, f.IsBasic path →
      ∃ c obs, PathContext.of p f path = .ok c ∧ c.obligations = .ok obs ∧ ∀ o ∈ obs, o ∈ os := by
  rw [obligations, seq_eq_ok] at h
  refine ⟨h.1, fun f hf hwf path hpath => ?_⟩
  obtain ⟨paths, part, hpaths, hpart, hsub⟩ := mem_proceduresObligations h.2 f hf
  obtain ⟨c, obs, hc, hobs, hsub'⟩ :=
    mem_pathsObligations hpart path ((Procedure.mem_basicPaths hwf hpaths).2 hpath)
  exact ⟨c, obs, hc, hobs, fun o ho => hsub o (hsub' o ho)⟩

end Program

/-- The obligations of a path are its condition for partial correctness and those for termination;
or there is one that is never valid. -/
theorem PathContext.obligations_eq_ok {c : PathContext} {obs : List Obligation}
    (h : c.obligations = .ok obs) :
    (∃ o ∈ obs, o.procedure = c.procedure.name ∧ o.formula = .ff) ∨
    ∃ main rest N d N', Naming.Gives c.partialCorrectness c.names main N ∧ c.demand = .ok d ∧
      Naming.Gives (c.termination c.precondition d.rankings) N rest N' ∧
      ∀ e ∈ main :: rest, ∃ o ∈ obs, o.procedure = c.procedure.name ∧ o.formula = e := by
  unfold obligations at h
  dsimp only at h
  split at h
  · cases h
    exact Or.inl ⟨_, List.mem_cons_self, rfl, rfl⟩
  · rw [bind_eq_ok] at h
    obtain ⟨⟨main, rest⟩, hrun, h⟩ := h
    cases h
    obtain ⟨N', hgives⟩ : ∃ N', Naming.Gives c.formulas c.names (main, rest) N' :=
      ⟨_, Prod.ext hrun rfl⟩
    obtain ⟨main', N, hmain, hgives₁⟩ := hgives.of_bind
    obtain ⟨d, N₁, hdemand, hgives₂⟩ := hgives₁.of_bind
    obtain ⟨hd, hN⟩ := hdemand.of_ofExcept
    obtain ⟨rest', N₂, hrest, hgives₃⟩ := hgives₂.of_bind
    cases (hgives₃.unique (Naming.gives_pure _ _)).1
    refine Or.inr ⟨main, rest, N, d, N₂, hmain, hd, hN ▸ hrest,
      List.forall_mem_cons.2 ⟨?_, fun e he => ?_⟩⟩
    · exact ⟨_, List.mem_cons_self, rfl, rfl⟩
    · exact ⟨_, List.mem_cons_of_mem _ (List.mem_map_of_mem he), rfl, rfl⟩

/-! ## Valid obligations -/

theorem exists_of_forall₂ {α β : Type} {R : α → β → Prop} {as : List α} {bs : List β}
    (h : List.Forall₂ R as bs) {a : α} (ha : a ∈ as) : ∃ b ∈ bs, R a b := by
  induction h with
  | nil => cases ha
  | cons hab _ ih =>
    rcases List.mem_cons.1 ha with rfl | ha
    · exact ⟨_, List.mem_cons_self, hab⟩
    · obtain ⟨b, hb, hR⟩ := ih ha
      exact ⟨b, List.mem_cons_of_mem _ hb, hR⟩

/-- Every execution of a basic path, from a state where the annotations at its start hold, ends
well. -/
def Procedure.Sound (f : Procedure) (p : Program) (I : Interp) : Prop :=
  ∀ path es first last, f.IsBasic path → path.edges f = .ok es → f.location path.start = .ok first →
    f.location path.finish = .ok last → ∀ σ : State, σ.Fits f.vars →
    (∀ a ∈ first.annotations, I.Holds σ a) →
      ∀ o, p.Executes I (es.map Edge.statement) σ o → o.Meets (last.Asks p I)

/-- Every execution of a basic path to a loop head, from a state where the annotations at its start
hold and its ranking functions are not negative, leads to smaller values of the loop head's, none of
which is negative. -/
def Procedure.Ranked (f : Procedure) (p : Program) (I : Interp) : Prop :=
  ∀ path es first last, f.IsBasic path → path.edges f = .ok es → f.location path.start = .ok first →
    f.location path.finish = .ok last → first.rankings ≠ [] → last.isLoopHead = true →
    last.rankings ≠ [] →
      ∀ σ : State, σ.Fits f.vars → (∀ a ∈ first.annotations, I.Holds σ a) →
      Datum.NonNegative (I.values σ first.rankings) →
        ∀ o, p.Executes I (es.map Edge.statement) σ o →
          o.Meets fun τ => Datum.Drops (I.values τ last.rankings) (I.values σ first.rankings)

/-- The formulas of a basic path whose obligations are valid. -/
theorem Program.exists_conditions {p : Program} {os : List Obligation} (h : p.obligations = .ok os)
    {f : Procedure} (hf : f ∈ p.procedures) {I : Interp}
    (hvalid : ∀ o ∈ os, o.procedure = f.name → I.Valid o.formula) {path : BasicPath}
    (hpath : f.IsBasic path) :
    ∃ (c : PathContext) (main : Expr) (rest : List Expr) (N : Names) (d : Demand) (N' : Names),
      c.IsOf p f path ∧ Naming.Gives c.partialCorrectness c.names main N ∧ c.demand = .ok d ∧
      Naming.Gives (c.termination c.precondition d.rankings) N rest N' ∧
      ∀ e ∈ main :: rest, I.Valid e := by
  obtain ⟨hvalidate, hobligations⟩ := mem_obligations h
  obtain ⟨c, obs, hof, hobs, hsub⟩ :=
    hobligations f hf (wellFormed_of_validate hvalidate f hf) path hpath
  have hc := PathContext.isOf_of hof
  have hformula : ∀ e, (∃ o ∈ obs, o.procedure = c.procedure.name ∧ o.formula = e) → I.Valid e := by
    rintro _ ⟨o, ho, hname, rfl⟩
    exact hvalid o (hsub o ho) (by rw [hname, hc.procedure])
  rcases PathContext.obligations_eq_ok hobs with
    hff | ⟨main, rest, N, d, N', hmain, hd, hrest, hall⟩
  · exact absurd (hformula _ hff (fun _ => .int 0) fun v hv =>
      absurd hv (Expr.mem_free_bool false)) Interp.not_holds_ff
  · exact ⟨c, main, rest, N, d, N', hc, hmain, hd, hrest, fun e he => hformula e (hall e he)⟩

theorem Program.sound_of_obligations {p : Program} {os : List Obligation}
    (h : p.obligations = .ok os) {f : Procedure} (hf : f ∈ p.procedures)
    (hscope : f.InScope p f.vars) {I : Interp}
    (hvalid : ∀ o ∈ os, o.procedure = f.name → I.Valid o.formula) : f.Sound p I := by
  have hwf := wellFormed_of_validate (mem_obligations h).1
  intro path es first last hpath hes hfirst hlast σ hσ hannotations o ho
  obtain ⟨c, main, rest, N, d, N', hc, hmain, -, -, hall⟩ := exists_conditions h hf hvalid hpath
  obtain ⟨vc, M, hgives, -, hiff⟩ :=
    PathContext.exists_partialCorrectness hc hwf (hwf f hf) hpath hscope fun _ hx => hx
  obtain ⟨rfl, -⟩ := hgives.unique hmain
  obtain rfl : c.first = first := Except.ok.inj (hc.first.symm.trans hfirst)
  obtain rfl : c.last = last := Except.ok.inj (hc.last.symm.trans hlast)
  rw [← hc.statements hes] at ho
  exact (hiff I).1 (hall _ List.mem_cons_self) σ hσ hannotations o ho

/-! ## Ranking functions -/

namespace PathContext

/-- The variables that the path, the location where it starts, and the ranking functions where it
ends are about. -/
def scope (c : PathContext) : List Var :=
  c.statements.flatMap Statement.free ++
    (c.first.annotations ++ c.first.rankings ++ c.last.rankings).flatMap Expr.free

section Scope
variable {c : PathContext} {p : Program} {f : Procedure} {path : BasicPath} (hc : c.IsOf p f path)
include hc

theorem IsOf.name_of_mem_scope : ∀ v ∈ c.scope, v.name ∈ c.names := by
  intro v hv
  rcases List.mem_append.1 hv with hv | hv
  · obtain ⟨s, hs, hv⟩ := List.mem_flatMap.1 hv
    exact hc.names_statements s hs _ (Statement.name_mem_names hv)
  · obtain ⟨a, ha, hv⟩ := List.mem_flatMap.1 hv
    have hname : v.name ∈ a.freeNames := Expr.mem_freeNames.2 ⟨v, hv, rfl⟩
    rcases List.mem_append.1 ha with ha | ha
    · exact hc.names_first _ (List.mem_flatMap.2 ⟨a, ha, hname⟩)
    · exact hc.names_last _ (List.mem_flatMap.2 ⟨a, List.mem_append_right _ ha, hname⟩)

theorem IsOf.mem_vars_of_formula {a : Expr}
    (ha : a ∈ c.first.annotations ++ c.first.rankings ++ c.last.rankings) {v : Var}
    (hv : v ∈ a.vars) : v ∈ f.vars := by
  rcases List.mem_append.1 ha with ha | ha
  · rcases List.mem_append.1 ha with ha | ha
    · exact Procedure.mem_vars_of_mem_annotations hc.first ha hv
    · exact Procedure.mem_vars_of_mem_rankings hc.first ha hv
  · exact Procedure.mem_vars_of_mem_rankings hc.last ha hv

theorem IsOf.mem_vars_of_mem_scope : ∀ v ∈ c.scope, v ∈ f.vars := by
  intro v hv
  rcases List.mem_append.1 hv with hv | hv
  · obtain ⟨s, hs, hv⟩ := List.mem_flatMap.1 hv
    exact hc.mem_vars_of_statement hs (Statement.mem_vars_of_mem_free hv)
  · obtain ⟨a, ha, hv⟩ := List.mem_flatMap.1 hv
    exact hc.mem_vars_of_formula ha (Expr.mem_vars_of_mem_free hv)

theorem IsOf.scopedIn_scope (hone : OneType f.vars) :
    ∀ a ∈ c.first.annotations ++ c.first.rankings ++ c.last.rankings,
      a.ScopedIn [] c.scope := fun a ha =>
  Expr.scopedIn_nil.2 ⟨OneType.scoped (hone.mono fun _ hv => hc.mem_vars_of_formula ha hv),
    fun _ hv => List.mem_append_right _ (List.mem_flatMap.2 ⟨a, ha, hv⟩)⟩

/-- A path without calls is about its own variables only. -/
theorem IsOf.within_scope (hone : OneType f.vars) (hplain : ∀ s ∈ c.statements, s.isCall = false) :
    c.Within c.scope := by
  refine ⟨hone.mono hc.mem_vars_of_mem_scope, fun s hs => ⟨?_, fun v hv => ?_⟩,
    fun s hs => hplain s (List.mem_of_mem_tail hs), fun lhs name args hs => ?_⟩
  · exact OneType.scoped_statement (hone.mono fun v hv => hc.mem_vars_of_statement hs hv)
  · exact List.mem_append_left _ (List.mem_flatMap.2 ⟨s, hs, hv⟩)
  · cases hplain _ hs

end Scope

end PathContext

theorem Procedure.CallFree.inScope {f : Procedure} (h : f.CallFree) (p : Program)
    (hone : OneType f.vars) : f.InScope p f.vars :=
  ⟨hone, fun _ hv => hv, fun l hl e he lhs name args hs => by cases hs ▸ h l hl e he⟩

theorem Program.ranked_of_obligations {p : Program} {os : List Obligation}
    (h : p.obligations = .ok os) {f : Procedure} (hf : f ∈ p.procedures)
    (hfree : f.CallFree) (hone : OneType f.vars) {I : Interp}
    (hvalid : ∀ o ∈ os, o.procedure = f.name → I.Valid o.formula) : f.Ranked p I := by
  have hwf := wellFormed_of_validate (mem_obligations h).1
  intro path es first last hpath hes hfirst hlast hfirstne hhead hlastne σ hσ hannotations
    hnonneg o ho
  obtain ⟨c, main, rest, N, d, N', hc, hmain, hd, hrest, hall⟩ :=
    exists_conditions h hf hvalid hpath
  obtain rfl : c.first = first := Except.ok.inj (hc.first.symm.trans hfirst)
  obtain rfl : c.last = last := Except.ok.inj (hc.last.symm.trans hlast)
  -- the only ranking functions that the path leads to are those of the loop head
  have hrankings : ∀ R, R ∈ d.rankings ↔ R = c.last.rankings := by
    obtain ⟨d', hd', -, -, hmem⟩ :=
      PathContext.exists_demand hc hwf (hwf f hf) (hfree.inScope p hone)
    rw [hd] at hd'
    cases hd'
    intro R
    rw [hmem R]
    refine ⟨?_, fun h => Or.inl ⟨hhead, h⟩⟩
    rintro (⟨-, h⟩ | ⟨g, args, ranks, ⟨e, he, lhs, name, hs, -⟩, -⟩)
    · exact h
    · cases hs ▸ hfree _ (List.mem_of_getElem? (Procedure.location_eq_ok.1 hc.last)) e he
  have hplain : ∀ s ∈ c.statements, s.isCall = false := by
    intro s hs
    obtain ⟨id, js, e, hjs, he, rfl⟩ := hc.edge_of_statement hs
    exact hfree.edges hjs e he
  -- the conditions are exact for the path's own variables, whose names are in use
  obtain ⟨vc, M, hgives, hgrows, -⟩ :=
    PathContext.exists_partialCorrectness hc hwf (hwf f hf) hpath (hfree.inScope p hone)
    fun _ hx => hx
  obtain ⟨-, rfl⟩ := hgives.unique hmain
  have hpre : c.precondition.ScopedIn [] c.scope := .conj fun a ha =>
    hc.scopedIn_scope hone a (List.mem_append_left _ (List.mem_append_left _ ha))
  have hentry : ∀ a ∈ c.rankings, a.ScopedIn [] c.scope := fun a ha =>
    hc.scopedIn_scope hone a (List.mem_append_left _ (List.mem_append_right _ ha))
  have hexits : ∀ R ∈ d.rankings, ∀ a ∈ R, a.ScopedIn [] c.scope := fun R hR a ha =>
    hc.scopedIn_scope hone a (List.mem_append_right _ ((hrankings R).1 hR ▸ ha))
  rw [PathContext.termination, if_neg (by simpa [PathContext.rankings] using hfirstne)] at hrest
  have hlen := PathContext.length_of_decreaseConditions hrest
  obtain ⟨vcs, M', hvcs, hexact⟩ :=
    PathContext.decreaseConditions_gives (hc.within_scope hone hplain) hpre hentry
    (hc.reserved hgrows fun v hv => Or.inl (hgrows _ (hc.name_of_mem_scope v hv))) hexits hlen
  obtain ⟨rfl, -⟩ := hvcs.unique hrest
  obtain ⟨vc, hvc, hiff⟩ :=
    exists_of_forall₂ hexact (a := c.last.rankings) (by simp [hrankings, hlastne])
  have hdescends := (hiff I).1 (hall vc (List.mem_cons_of_mem _ hvc)) σ
    (hσ.mono hc.mem_vars_of_mem_scope) ((Interp.holds_conj _).2 hannotations) hnonneg
  rw [← hc.statements hes, ← hc.program] at ho
  refine (hdescends o ho).imp fun τ hτ => ⟨?_, hτ.1, hτ.2⟩
  rw [Interp.values_eq_map, Interp.values_eq_map, List.length_map, List.length_map]
  exact hlen _ ((hrankings _).2 rfl) hlastne

/-! ## An example -/

namespace Counting

/-- The result of the call, as the condition of `main` names it. -/
def r' : Var := ⟨"r$0", .int⟩

def conditions : List Expr := [
  .implies (.binary .ge (.var n) (.int 0)) (.binary .le (.int 0) (.var n)),
  .implies (.and (.binary .ge (.var n) (.int 0)) (.binary .ge (.binary .add (.var n) (.int 1))
    (.int 0))) (.and (.binary .lt (.binary .sub (.var n) (.int 0)) (.binary .add (.var n) (.int 1)))
      (.binary .ge (.binary .sub (.var n) (.int 0)) (.int 0))),
  .implies (.binary .le (.var r) (.var n))
    (.implies (.binary .ge (.var r) (.var n)) (.binary .eq (.var r) (.var n))),
  .implies (.binary .le (.var r) (.var n))
    (.implies (.binary .lt (.var r) (.var n))
    (.binary .le (.binary .add (.var r) (.int 1)) (.var n))),
  .implies (.and (.binary .le (.var r) (.var n)) (.binary .ge (.binary .sub (.var n) (.var r))
    (.int 0))) (.implies (.binary .lt (.var r) (.var n))
      (.and (.binary .lt (.binary .sub (.var n) (.binary .add (.var r) (.int 1)))
      (.binary .sub (.var n) (.var r)))
        (.binary .ge (.binary .sub (.var n) (.binary .add (.var r) (.int 1))) (.int 0)))),
  .implies (.binary .gt (.var n) (.int 0)) (.binary .ge (.var n) (.int 0)),
  .implies (.binary .gt (.var n) (.int 0)) (.implies (.binary .eq (.var r') (.var n))
    (.and (.binary .eq (.var r') (.var n)) (.binary .gt (.var r') (.int 0))))]

theorem exists_obligations :
    ∃ os, program.obligations = .ok os ∧ os.map Obligation.formula = conditions := ⟨_, rfl, rfl⟩

theorem conditions_valid (I : Interp) : ∀ e ∈ conditions, I.Valid e := by
  intro e he
  have hfree : ∀ e ∈ conditions, ∀ v ∈ e.free, v ∈ [n, r, r'] := by decide
  refine (@Interp.valid_iff I e [] [n, r, r'] (by decide) List.nodup_nil fun v hv =>
    Or.inr ⟨hfree e he v hv, List.not_mem_nil⟩).2 fun σ hσ ds _ => ?_
  rw [NameMap.bind_nil]
  have hn := Datum.eq_int (hσ n (by decide))
  have hr := Datum.eq_int (hσ r (by decide))
  have hr' := Datum.eq_int (hσ r' (by decide))
  revert e
  generalize (σ n.name).toInt = a at hn
  generalize (σ r.name).toInt = b at hr
  generalize (σ r'.name).toInt = c at hr'
  simp [conditions, Interp.Holds, BinOp.value, Expr.implies, Expr.and, hn, hr, hr']
  omega

theorem verified : ∃ os, program.obligations = .ok os ∧ ∀ o ∈ os, program.Valid o.formula := by
  obtain ⟨os, hos, hformulas⟩ := exists_obligations
  refine ⟨os, hos, fun o ho I _ => conditions_valid I _ ?_⟩
  rw [← hformulas]
  exact List.mem_map_of_mem ho

def interp : Interp := ⟨fun _ _ => false, fun _ => 0, fun _ => 0⟩

theorem satisfies : interp.Satisfies program.table := fun name q h => by cases h

/-- A frame at the entry where all variables are 3. -/
def start (f : Procedure) (h : ∀ v ∈ f.vars, v.ty = .int) : Frame :=
  ⟨f, f.entry, fun _ => .int 3, fun v hv => (h v hv).symm⟩

end Counting

end Cutpoint
