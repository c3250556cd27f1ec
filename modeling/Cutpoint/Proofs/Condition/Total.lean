import Cutpoint.Obligation
import Cutpoint.Proofs.Condition.Context
import Cutpoint.Proofs.Condition.Naming
import Cutpoint.Proofs.Path.Search

/-!
# Conditions are always computed

The conditions of a basic path of a well-formed program can be computed whatever its variables are,
unless there are ranking functions at both ends that are not as many. Names once in use stay in use,
and what the computation meets on its way comes into use.

* `PathContext.Resolves`: the calls among statements are to procedures that are there;
* `PathContext.weakest_total`, `PathContext.IsOf.partialCorrectness_total`: the conditions for
  partial correctness;
* `PathContext.decreaseConditions_total`: the conditions for termination, one for each non-empty
  tuple that the path leads to;
* `PathContext.IsOf.obligations_total`, `Program.obligations_total`: the obligations of a path and
  of a program.
-/

set_option autoImplicit false

namespace Cutpoint

namespace PathContext

/-! ## Weakest preconditions -/

theorem bindResults_total (binding assigned : Subst) (rs lhs : List Var) (N : Names) :
    ∃ r N', Naming.Gives (bindResults binding assigned rs lhs) N r N' ∧ ∀ x ∈ N, x ∈ N' := by
  induction rs generalizing binding assigned lhs N with
  | nil => exact ⟨(binding, assigned), N, rfl, fun _ hx => hx⟩
  | cons r rs ih =>
    cases lhs with
    | nil =>
      obtain ⟨out, N', hout, hgrows⟩ :=
        ih (binding.insert r (.var (r.fresh N))) assigned [] ((r.fresh N).name :: N)
      exact ⟨out, N', (Naming.gives_fresh r N).bind hout,
        fun x hx => hgrows x (List.mem_cons_of_mem _ hx)⟩
    | cons v lhs =>
      obtain ⟨out, N', hout, hgrows⟩ := ih (binding.insert r (.var (v.fresh N)))
        (assigned.insert v (.var (v.fresh N))) lhs ((v.fresh N).name :: N)
      exact ⟨out, N', (Naming.gives_fresh v N).bind hout,
        fun x hx => hgrows x (List.mem_cons_of_mem _ hx)⟩

/-- One of the statements calls the procedure `g`. -/
def Invokes (c : PathContext) (ss : List Statement) (g : Procedure) : Prop :=
  ∃ lhs name args, Statement.call lhs name args ∈ ss ∧ c.callee lhs name args = .ok g

/-- The calls among the statements are to procedures with exit conditions. -/
def Resolves (c : PathContext) (ss : List Statement) : Prop :=
  ∀ lhs name args, Statement.call lhs name args ∈ ss → ∃ g cs, c.callee lhs name args = .ok g ∧
    g.exitConditions = .ok cs

/-- A name in the exit conditions of a procedure that one of the statements calls. -/
def ExitName (c : PathContext) (ss : List Statement) (x : String) : Prop :=
  ∃ g cs, c.Invokes ss g ∧ g.exitConditions = .ok cs ∧ ∃ a ∈ cs, x ∈ a.freeNames

theorem exitName_cons {c : PathContext} {s : Statement} {ss : List Statement} {x : String}
    (h : c.ExitName (s :: ss) x) : c.ExitName [s] x ∨ c.ExitName ss x := by
  obtain ⟨g, cs, ⟨lhs, name, args, hs, hg⟩, hcs, hx⟩ := h
  rcases List.mem_cons.1 hs with rfl | hs
  · exact Or.inl ⟨g, cs, ⟨lhs, name, args, List.mem_singleton_self _, hg⟩, hcs, hx⟩
  · exact Or.inr ⟨g, cs, ⟨lhs, name, args, hs, hg⟩, hcs, hx⟩

section Weakest
variable {c : PathContext}

theorem weakestCall_total {lhs args : List Var} {name : String} {g : Procedure}
    (hg : c.callee lhs name args = .ok g) {cs : List Expr} (hcs : g.exitConditions = .ok cs)
    (post : Expr) (N : Names) :
    ∃ w N', Naming.Gives (c.weakestCall lhs name args post) N w N' ∧
      (∀ x ∈ N, x ∈ N') ∧ ∀ a ∈ cs, ∀ x ∈ a.freeNames, x ∈ N' := by
  obtain ⟨⟨b, s⟩, N', hbind, hgrows⟩ := bindResults_total (g.binding args) [] g.results lhs
    (post.freeNames ++ ((Expr.conj cs).freeNames ++ N))
  refine ⟨_, N', (Naming.gives_ofExcept hg N).bind ((Naming.gives_ofExcept hcs N).bind
    ((Naming.gives_reserve _ _).bind ((Naming.gives_reserve _ _).bind (hbind.bind rfl)))),
    fun x hx => ?_, fun a ha x hx => ?_⟩
  · exact hgrows x (List.mem_append_right _ (List.mem_append_right _ hx))
  · obtain ⟨v, hv, rfl⟩ := Expr.mem_freeNames.1 hx
    have hv' : v ∈ (Expr.conj cs).free := (Expr.mem_free_conj cs).2 ⟨a, ha, hv⟩
    exact hgrows _
      (List.mem_append_right _ (List.mem_append_left _ (Expr.mem_freeNames.2 ⟨v, hv', rfl⟩)))

theorem weakestStep_total {s : Statement} (h : c.Resolves [s]) (post : Expr) (N : Names) :
    ∃ w N', Naming.Gives (c.weakestStep s post) N w N' ∧ (∀ x ∈ N, x ∈ N') ∧ ∀ x, c.ExitName [s] x →
      x ∈ N' := by
  have hplain : s.isCall = false → ∀ x, ¬ c.ExitName [s] x := by
    rintro hs x ⟨g, cs, ⟨lhs, name, args, hmem, -⟩, -⟩
    rw [← List.mem_singleton.1 hmem] at hs
    cases hs
  cases s with
  | call lhs name args =>
    obtain ⟨g, cs, hg, hcs⟩ := h lhs name args (List.mem_singleton_self _)
    obtain ⟨w, N', hw, hgrows, hexit⟩ := weakestCall_total hg hcs post N
    refine ⟨w, N', hw, hgrows, ?_⟩
    rintro x ⟨g', cs', ⟨lhs', name', args', hmem, hg'⟩, hcs', a, ha, hx⟩
    cases List.mem_singleton.1 hmem
    rw [hg] at hg'
    cases hg'
    rw [hcs] at hcs'
    cases hcs'
    exact hexit a ha x hx
  | assign v e | assignAt v i e | assume e | assert e =>
    exact ⟨_, N, rfl, fun _ hx => hx, fun x hx => absurd hx (hplain rfl x)⟩

theorem weakestAll_total {ss : List Statement} (h : c.Resolves ss) (post : Expr) (N : Names) :
    ∃ w N', Naming.Gives (c.weakestAll ss post) N w N' ∧ (∀ x ∈ N, x ∈ N') ∧ ∀ x, c.ExitName ss x →
      x ∈ N' := by
  induction ss with
  | nil =>
    refine ⟨post, N, rfl, fun _ hx => hx, ?_⟩
    rintro x ⟨g, cs, ⟨lhs, name, args, hs, -⟩, -⟩
    cases hs
  | cons s ss ih =>
    obtain ⟨w, N₁, hw, hgrows, hexit⟩ := ih fun lhs name args hs =>
      h lhs name args (List.mem_cons_of_mem _ hs)
    obtain ⟨u, N', hu, hgrows', hexit'⟩ := weakestStep_total (c := c) (s := s)
      (fun lhs name args hs => h lhs name args (List.mem_singleton.1 hs ▸ List.mem_cons_self)) w N₁
    refine ⟨u, N', hw.bind hu, fun x hx => hgrows' x (hgrows x hx), fun x hx => ?_⟩
    rcases exitName_cons hx with hx | hx
    · exact hexit' x hx
    · exact hgrows' x (hexit x hx)

/-- The condition at the start of a path is computed, and then the names of the condition at its end
and of the exit conditions on its way are in use. -/
theorem weakest_total (h : c.Resolves c.statements) (post : Expr) (N : Names) :
    ∃ w N', Naming.Gives (c.weakest post) N w N' ∧ (∀ x ∈ N, x ∈ N') ∧
      (∀ x ∈ post.freeNames, x ∈ N') ∧
      ∀ x, c.ExitName c.statements x → x ∈ N' := by
  obtain ⟨w, N', hw, hgrows, hexit⟩ := weakestAll_total h post (post.freeNames ++ N)
  exact ⟨w, N', (Naming.gives_reserve _ N).bind hw,
    fun x hx => hgrows x (List.mem_append_right _ hx),
    fun x hx => hgrows x (List.mem_append_left _ hx), hexit⟩

/-! ## Termination -/

theorem decreaseConditionBy_total (h : c.Resolves c.statements) (pre : Expr)
    (entry exit : List Expr) (N : Names) :
    ∃ vc N', Naming.Gives (c.decreaseConditionBy inPlace pre entry exit) N vc N' ∧
      ∀ x ∈ N, x ∈ N' := by
  obtain ⟨frozen, N₁, hfrozen, hnew, -⟩ := Naming.freshAll_gives (rankingVars entry) N
  obtain ⟨w, N', hw, hgrows, -⟩ := weakest_total h (.and (lexDecrease exit (entry.map
    (Expr.subst (.ofRenaming ((rankingVars entry).zip frozen))))) (nonNegative exit)) N₁
  exact ⟨_, N', hfrozen.bind ((Naming.gives_ofExcept rfl _).bind (hw.bind rfl)),
    fun x hx => hgrows x (hnew.grows x hx)⟩

/-- One condition is computed for each tuple that is not empty. -/
theorem decreaseConditions_total (h : c.Resolves c.statements) (pre : Expr) {entry : List Expr}
    {exits : List (List Expr)} (hlen : ∀ R ∈ exits, R ≠ [] → R.length = entry.length) (N : Names) :
    ∃ vcs N', Naming.Gives (c.decreaseConditions pre entry exits) N vcs N' ∧ (∀ x ∈ N, x ∈ N') ∧
      (vcs ≠ [] ↔ ∃ R ∈ exits, R ≠ []) := by
  induction exits generalizing N with
  | nil => exact ⟨[], N, rfl, fun _ hx => hx, by simp⟩
  | cons R exits ih =>
    rw [List.forall_mem_cons] at hlen
    by_cases hR : R = []
    · obtain ⟨vcs, N', hvcs, hgrows, hiff⟩ := ih hlen.2 N
      refine ⟨vcs, N', ?_, hgrows, ?_⟩
      · rw [decreaseConditions, decreaseConditionsBy, if_pos (List.isEmpty_iff.2 hR)]
        exact hvcs
      · rw [hiff, List.exists_mem_cons_iff]
        exact (or_iff_right (not_not.2 hR)).symm
    · obtain ⟨vc, N₁, hvc, hgrows⟩ := decreaseConditionBy_total h pre entry R N
      obtain ⟨vcs, N', hvcs, hgrows', -⟩ := ih hlen.2 N₁
      refine ⟨vc :: vcs, N', ?_, fun x hx => hgrows' x (hgrows x hx), ?_⟩
      · rw [decreaseConditions, decreaseConditionsBy, if_neg (by simpa using hR),
          if_neg (not_not.2 (hlen.1 hR))]
        exact hvc.bind (hvcs.bind rfl)
      · exact iff_of_true (List.cons_ne_nil _ _) ⟨R, List.mem_cons_self, hR⟩

end Weakest

/-! ## Basic paths -/

section Basic
variable {c : PathContext} {p : Program} {f : Procedure} {path : BasicPath} (hc : c.IsOf p f path)
  (hp : ∀ g ∈ p.procedures, g.WellFormed p) (hf : f.WellFormed p)
include hc hp hf

theorem IsOf.resolves : c.Resolves c.statements := by
  intro lhs name args hs
  obtain ⟨id, js, e, hjs, he, hs⟩ := hc.edge_of_statement hs
  obtain ⟨l, hl, he⟩ := Procedure.mem_edges_of_call hjs he (by rw [hs]; rfl)
  obtain ⟨g, hg, hcheck⟩ := hf.call hl he hs
  obtain ⟨cs, hcs⟩ := (hp g (Program.mem_of_procedure hg)).exists_exitConditions
  refine ⟨g, cs, callee_eq_ok.2 ?_, hcs⟩
  rw [hc.program, hc.procedure]
  exact ⟨hg, hcheck⟩

theorem IsOf.demand_total : ∃ d, c.demand = .ok d := by
  obtain ⟨cs, rs, hdemands, -⟩ := exists_callDemands (exists_callee_last hc hp hf)
  exact ⟨_, bind_eq_ok.2 ⟨_, hdemands, rfl⟩⟩

/-- What a path leads to: the ranking functions of a loop head, and those of the callees with
arguments for parameters. -/
theorem IsOf.mem_rankings {d : Demand} (hd : c.demand = .ok d) {R : List Expr} :
    R ∈ d.rankings ↔ (c.last.isLoopHead = true ∧ R = c.last.rankings) ∨
      ∃ g args ranks, c.Calls c.last.edges g args ∧ g.entryRankings = .ok ranks ∧
        R = ranks.map (Expr.subst (g.binding args)) := by
  obtain ⟨cs, rs, hdemands, -, hrs⟩ := exists_callDemands (exists_callee_last hc hp hf)
  rw [demand, bind_eq_ok] at hd
  obtain ⟨_, hdemands', hd⟩ := hd
  rw [hdemands] at hdemands'
  cases hdemands'
  cases hd
  by_cases hhead : c.last.isLoopHead = true
  · simp [hhead, hrs]
  · simp [hhead, hrs]

theorem IsOf.partialCorrectness_total {d : Demand} (hd : c.demand = .ok d) (N : Names) :
    ∃ main N', Naming.Gives c.partialCorrectness N main N' ∧ (∀ x ∈ N, x ∈ N') ∧
      (∀ x ∈ d.post.freeNames, x ∈ N') ∧
      ∀ x, c.ExitName c.statements x → x ∈ N' := by
  obtain ⟨w, N', hw, hnames⟩ := weakest_total (hc.resolves hp hf) d.post N
  exact ⟨_, N', (Naming.gives_ofExcept hd N).bind (hw.bind rfl), hnames⟩

/-- The obligations of a path are computed if the tuples at both ends are of the same length. There
are some for termination exactly if the path leads from a non-empty tuple, without negations, to
another. -/
theorem IsOf.obligations_total {d : Demand} (hd : c.demand = .ok d)
    (hlen : c.rankings ≠ [] → ∀ R ∈ d.rankings, R ≠ [] → R.length = c.rankings.length) :
    ∃ obs, c.obligations = .ok obs ∧ (∀ o ∈ obs, o.procedure = c.procedure.name ∧ o.path = c.path) ∧
      ((∃ o ∈ obs, o.kind = .termination) ↔
        (∀ e ∈ c.rankings, e.isNegation = false) ∧ c.rankings ≠ [] ∧ ∃ R ∈ d.rankings, R ≠ []) := by
  unfold PathContext.obligations
  by_cases hneg : c.rankings.any Expr.isNegation = true
  · rw [if_pos hneg]
    refine ⟨_, rfl, by simp, ?_⟩
    have hno : ¬ ∀ e ∈ c.rankings, e.isNegation = false := by simpa using hneg
    simp [hno]
  · rw [if_neg hneg]
    have hnone : ∀ e ∈ c.rankings, e.isNegation = false := by simpa using hneg
    obtain ⟨main, N, hmain, -⟩ := hc.partialCorrectness_total hp hf hd c.names
    obtain ⟨rest, N', hrest, hiff⟩ : ∃ rest N',
        Naming.Gives (c.termination c.precondition d.rankings) N rest N' ∧
        (rest ≠ [] ↔ c.rankings ≠ [] ∧ ∃ R ∈ d.rankings, R ≠ []) := by
      unfold termination
      by_cases hne : c.rankings = []
      · rw [if_pos (List.isEmpty_iff.2 hne)]
        exact ⟨[], N, rfl, by simp [hne]⟩
      · rw [if_neg (by simpa using hne)]
        obtain ⟨vcs, N', hvcs, -, hiff⟩ :=
          decreaseConditions_total (hc.resolves hp hf) c.precondition (hlen hne) N
        exact ⟨vcs, N', hvcs, by simp [hiff, hne]⟩
    have hformulas : Naming.Gives c.formulas c.names (main, rest) N' :=
      hmain.bind ((Naming.gives_ofExcept hd N).bind (hrest.bind rfl))
    refine ⟨_, bind_eq_ok.2 ⟨_, congrArg Prod.fst hformulas, rfl⟩, ?_, ?_⟩
    · simp
    · rw [← hiff]
      cases rest with
      | nil => simp
      | cons e rest => simpa using hnone

end Basic

end PathContext

/-! ## Programs -/

namespace Program
variable {p : Program}

theorem pathsObligations_total {f : Procedure} {paths : List BasicPath}
    (h : ∀ path ∈ paths, ∃ obs, p.pathObligations f path = .ok obs) :
    ∃ os, p.pathsObligations f paths = .ok os := by
  induction paths with
  | nil => exact ⟨[], rfl⟩
  | cons path paths ih =>
    rw [List.forall_mem_cons] at h
    obtain ⟨obs, hobs⟩ := h.1
    obtain ⟨os, hos⟩ := ih h.2
    exact ⟨obs ++ os, bind_eq_ok.2 ⟨obs, hobs, bind_eq_ok.2 ⟨os, hos, rfl⟩⟩⟩

theorem proceduresObligations_total {fs : List Procedure} (hwf : ∀ f ∈ fs, f.WellFormed p)
    (h : ∀ f ∈ fs, ∀ path, f.IsBasic path → ∃ obs, p.pathObligations f path = .ok obs) :
    ∃ os, p.proceduresObligations fs = .ok os := by
  induction fs with
  | nil => exact ⟨[], rfl⟩
  | cons f fs ih =>
    rw [List.forall_mem_cons] at h hwf
    obtain ⟨paths, hpaths⟩ := hwf.1.exists_basicPaths
    obtain ⟨part, hpart⟩ := pathsObligations_total fun path hpath =>
      h.1 path ((Procedure.mem_basicPaths hwf.1 hpaths).1 hpath)
    obtain ⟨os, hos⟩ := ih hwf.2 h.2
    exact ⟨part ++ os,
      bind_eq_ok.2 ⟨part, bind_eq_ok.2 ⟨paths, hpaths, hpart⟩, bind_eq_ok.2 ⟨os, hos, rfl⟩⟩⟩

/-- A valid program has obligations if each of its paths has. -/
theorem obligations_total (hp : p.validate = .ok ())
    (h : ∀ f ∈ p.procedures, ∀ path, f.IsBasic path → ∃ obs, p.pathObligations f path = .ok obs) :
    ∃ os, p.obligations = .ok os := by
  obtain ⟨os, hos⟩ := proceduresObligations_total (wellFormed_of_validate hp) h
  exact ⟨os, seq_eq_ok.2 ⟨hp, hos⟩⟩

end Program

end Cutpoint
