import Cutpoint.Proofs.Condition.Total
import Cutpoint.Proofs.Flow.Exit
import Cutpoint.Proofs.Soundness.Termination

/-!
# What the termination obligations are about

* `termination_obligation_iff`: where all entries and loop heads are ranked, the basic paths that
  lead to one of them or to a call have an obligation for termination exactly if they start at one;
* `nonNegative_inherited`: in a procedure without calls whose obligations are valid, ranking
  functions that were not negative where a run passed are not negative at the loop heads that it
  comes to from there.

A path that starts at a call site has no obligation for termination (`Poll.unranked_path`), and no
obligation says that ranking functions are not negative on the first arrival from a location without
them (`Countdown.negative_arrival`).
-/

set_option autoImplicit false

namespace Cutpoint

/-! ## Paths with an obligation -/

/-- Entries and loop heads have `n` ranking functions, none of which is an arithmetic negation. -/
def Program.HasRank (p : Program) (n : Nat) : Prop :=
  ∀ f ∈ p.procedures, ∀ l ∈ f.locations, l.isEntry = true ∨ l.isLoopHead = true →
    l.rankings.length = n ∧ ∀ e ∈ l.rankings, e.isNegation = false

instance (p : Program) (n : Nat) : Decidable (p.HasRank n) :=
  inferInstanceAs (Decidable (∀ f ∈ p.procedures, ∀ l ∈ f.locations, l.isEntry = true ∨
    l.isLoopHead = true →
    l.rankings.length = n ∧ ∀ e ∈ l.rankings, e.isNegation = false))

/-- Only entries and loop heads have ranking functions. -/
theorem Location.ranked_of_rankings {l : Location} (h : l.rankings ≠ []) :
    l.isEntry = true ∨ l.isLoopHead = true := by
  unfold Location.rankings Location.rankings? at h
  unfold isEntry isLoopHead
  cases hkind : l.kind with
  | entry cs rs => exact Or.inl rfl
  | loopHead is rs => exact Or.inr rfl
  | exit cs | plain =>
    rw [hkind] at h
    exact absurd rfl h

section HasRank
variable {p : Program} {n : Nat} (hrank : p.HasRank n) (hp : ∀ g ∈ p.procedures, g.WellFormed p)
include hrank

theorem Program.HasRank.location {f : Procedure} (hf : f ∈ p.procedures) {id : Nat} {l : Location}
    (hl : f.location id = .ok l) (h : l.isEntry = true ∨ l.isLoopHead = true) :
    l.rankings.length = n ∧ ∀ e ∈ l.rankings, e.isNegation = false :=
  hrank f hf l (List.mem_of_getElem? (Procedure.location_eq_ok.1 hl)) h

include hp in
theorem Program.HasRank.entryRankings {g : Procedure} (hg : g ∈ p.procedures) {ranks : List Expr}
    (h : g.entryRankings = .ok ranks) : ranks.length = n := by
  obtain ⟨l, hl, hentry⟩ := (hp g hg).entry
  rw [Procedure.entryRankings, hl] at h
  cases h
  exact (hrank.location hg hl (Or.inl hentry)).1

variable {c : PathContext} {f : Procedure} {path : BasicPath} (hf : f ∈ p.procedures)
  (hc : c.IsOf p f path) {d : Demand} (hd : c.demand = .ok d)
include hp hf hc hd

/-- All tuples that a path leads to are of this length. -/
theorem PathContext.IsOf.length_rankings : ∀ R ∈ d.rankings, R.length = n := by
  intro R hR
  rcases (hc.mem_rankings hp (hp f hf) hd).1 hR with
    ⟨hhead, rfl⟩ | ⟨g, args, ranks, ⟨e, -, lhs, name, -, hg⟩, hranks, rfl⟩
  · exact (hrank.location hf hc.last (Or.inr hhead)).1
  · rw [callee_eq_ok, hc.program] at hg
    rw [List.length_map]
    exact hrank.entryRankings hp (Program.mem_of_procedure hg.1) hranks

omit hrank in
/-- A path to a loop head or to a call leads to some tuple. -/
theorem PathContext.IsOf.exists_rankings
    (hlast : c.last.isLoopHead = true ∨ c.last.hasCall = true) : ∃ R, R ∈ d.rankings := by
  rcases hlast with hhead | hcall
  · exact ⟨_, (hc.mem_rankings hp (hp f hf) hd).2 (Or.inl ⟨hhead, rfl⟩)⟩
  · obtain ⟨e, he, hcall⟩ := List.any_eq_true.1 hcall
    cases hs : e.statement with
    | call lhs name args =>
      obtain ⟨g, hg, hgwf⟩ := PathContext.exists_callee_last hc hp (hp f hf) e he lhs name args hs
      obtain ⟨ranks, hranks⟩ := hgwf.exists_entryRankings
      exact ⟨_, (hc.mem_rankings hp (hp f hf) hd).2
        (Or.inr ⟨g, args, ranks, ⟨e, he, lhs, name, hs, hg⟩, hranks, rfl⟩)⟩
    | assign | assignAt | assume | assert =>
      rw [hs] at hcall
      cases hcall

/-- The obligations of a path, which has one for termination exactly if it leads from a ranked
location to some tuple. -/
theorem PathContext.IsOf.obligations_of_hasRank (hn : 0 < n) :
    ∃ obs, c.obligations = .ok obs ∧ (∀ o ∈ obs, o.procedure = c.procedure.name ∧ o.path = c.path) ∧
    ((∃ o ∈ obs, o.kind = .termination) ↔ (c.first.isEntry = true ∨ c.first.isLoopHead = true) ∧
      ∃ R, R ∈ d.rankings) := by
  have hlen := hc.length_rankings hrank hp hf hd
  have hfirst := hrank.location hf hc.first
  have hne : ∀ {R : List Expr}, R.length = n → R ≠ [] := fun h hnil => by
    rw [hnil] at h
    exact absurd h (Nat.ne_of_lt hn)
  obtain ⟨obs, hobs, hfrom, hiff⟩ := hc.obligations_total hp (hp f hf) hd fun h R hR _ =>
    (hlen R hR).trans (hfirst (Location.ranked_of_rankings h)).1.symm
  refine ⟨obs, hobs, hfrom, hiff.trans ⟨?_, ?_⟩⟩
  · rintro ⟨-, h, R, hR, -⟩
    exact ⟨Location.ranked_of_rankings h, R, hR⟩
  · rintro ⟨h, R, hR⟩
    exact ⟨(hfirst h).2, hne (hfirst h).1, R, hR, hne (hlen R hR)⟩

end HasRank

/-- **Paths between ranked locations are checked for termination**: let all entries and loop heads
of a valid program have tuples of the same positive number of ranking functions, none of which is a
negation. Then the program has obligations, and a basic path to a loop head or to a call site
contributes one for termination exactly if it starts at the entry or at a loop head. -/
theorem termination_obligation_iff {p : Program} (hp : p.validate = .ok ()) {n : Nat} (hn : 0 < n)
    (hrank : p.HasRank n) :
    ∃ os, p.obligations = .ok os ∧ ∀ f ∈ p.procedures, ∃ paths, f.basicPaths = .ok paths ∧
      ∀ path ∈ paths, ∀ first last, f.location path.start = .ok first →
      f.location path.finish = .ok last → last.isLoopHead = true ∨ last.hasCall = true →
        ∃ obs, p.pathObligations f path = .ok obs ∧
          (∀ o ∈ obs, o ∈ os ∧ o.procedure = f.name ∧ o.path = path) ∧
          ((∃ o ∈ obs, o.kind = .termination) ↔
            path.start = f.entry ∨ first.isLoopHead = true) := by
  have hwf := Program.wellFormed_of_validate hp
  obtain ⟨os, hos⟩ : ∃ os, p.obligations = .ok os := by
    refine Program.obligations_total hp fun f hf path hpath => ?_
    obtain ⟨c, hof⟩ := PathContext.exists_of (hwf f hf) hpath
    have hc := PathContext.isOf_of hof
    obtain ⟨d, hd⟩ := hc.demand_total hwf (hwf f hf)
    obtain ⟨obs, hobs, -⟩ := hc.obligations_of_hasRank hrank hwf hf hd hn
    exact ⟨obs, bind_eq_ok.2 ⟨c, hof, hobs⟩⟩
  refine ⟨os, hos, fun f hf => ?_⟩
  obtain ⟨paths, hpaths⟩ := (hwf f hf).exists_basicPaths
  refine ⟨paths, hpaths, fun path hpath first last hfirst hlast hend => ?_⟩
  obtain ⟨c, obs, hof, hobs, hsub⟩ := (Program.mem_obligations hos).2 f hf (hwf f hf) path
    ((Procedure.mem_basicPaths (hwf f hf) hpaths).1 hpath)
  have hc := PathContext.isOf_of hof
  obtain rfl : c.first = first := Except.ok.inj (hc.first.symm.trans hfirst)
  obtain rfl : c.last = last := Except.ok.inj (hc.last.symm.trans hlast)
  obtain ⟨d, hd⟩ := hc.demand_total hwf (hwf f hf)
  obtain ⟨obs', hobs', hfrom, hiff⟩ := hc.obligations_of_hasRank hrank hwf hf hd hn
  rw [hobs] at hobs'
  cases hobs'
  refine ⟨obs, bind_eq_ok.2 ⟨c, hof, hobs⟩, fun o ho => ⟨hsub o ho, ?_⟩, hiff.trans ?_⟩
  · rw [← hc.procedure, ← PathContext.path_of hof]
    exact hfrom o ho
  · rw [and_iff_left (hc.exists_rankings hwf hf hd hend)]
    refine or_congr_left ⟨fun h => (hwf f hf).entry_unique _ _ hfirst h, fun h => ?_⟩
    obtain ⟨l, hl, hentry⟩ := (hwf f hf).entry
    rw [h, hl] at hfirst
    cases hfirst
    exact hentry

namespace Poll

def idle : Procedure := ⟨"idle", [], [], 0, 1, [⟨.entry [] [.int 0], []⟩, ⟨.exit [], []⟩]⟩

/-- A loop that calls a procedure each time around. -/
def poll : Procedure where
  name := "poll"
  parameters := []
  results := []
  entry := 0
  exit := 3
  locations := [
    ⟨.entry [] [.int 2], [⟨1, .assume .tt⟩]⟩,
    ⟨.loopHead [] [.int 1], [⟨2, .assume .tt⟩, ⟨3, .assume .tt⟩]⟩,
    ⟨.plain, [⟨1, .call [] "idle" []⟩]⟩,
    ⟨.exit [], []⟩]

def program : Program := ⟨[], [idle, poll]⟩

def around : BasicPath := ⟨2, [(0, 1)]⟩

/-- The path from the call site back to the loop head has no obligation for termination. -/
theorem unranked_path :
    program.validate = .ok () ∧ program.HasRank 1 ∧ poll ∈ program.procedures ∧
    ∃ paths os, poll.basicPaths = .ok paths ∧ around ∈ paths ∧
      (∃ l, poll.location around.finish = .ok l ∧ l.isLoopHead = true) ∧
      program.obligations = .ok os ∧
      ∀ o ∈ os, o.procedure = poll.name → o.path = around → o.kind ≠ .termination := by
  refine ⟨rfl, by decide, List.mem_cons_of_mem _ List.mem_cons_self, _, _, rfl, by decide,
    ⟨_, rfl, rfl⟩, rfl, ?_⟩
  decide

end Poll

/-- The way to the loop is checked for termination, and the way around it is not. -/
theorem termination_obligation_iff_poll :
    ∃ os, Poll.program.obligations = .ok os ∧
      ∃ toLoop around, Poll.program.pathObligations Poll.poll ⟨0, [(0, 1)]⟩ = .ok toLoop ∧
      Poll.program.pathObligations Poll.poll Poll.around = .ok around ∧
      (∃ o ∈ toLoop, o ∈ os ∧ o.kind = .termination) ∧
      ∀ o ∈ around, o ∈ os ∧ o.kind ≠ .termination := by
  obtain ⟨os, hos, h⟩ := termination_obligation_iff (p := Poll.program) rfl Nat.one_pos (by decide)
  obtain ⟨paths, hpaths, hall⟩ := h Poll.poll (List.mem_cons_of_mem _ List.mem_cons_self)
  cases Except.ok.inj (hpaths.symm.trans (show _ = Except.ok _ from rfl))
  obtain ⟨toLoop, htoLoop, hmem, hiff⟩ := hall ⟨0, [(0, 1)]⟩ (by decide) _ _ rfl rfl (Or.inl rfl)
  obtain ⟨around, haround, hmem', hiff'⟩ := hall Poll.around (by decide) _ _ rfl rfl (Or.inl rfl)
  obtain ⟨o, ho, hkind⟩ := hiff.2 (Or.inl rfl)
  have hnone : ¬ ∃ o ∈ around, o.kind = .termination := fun hex => absurd (hiff'.1 hex) (by decide)
  exact ⟨os, hos, toLoop, around, htoLoop, haround, ⟨o, ho, (hmem o ho).1, hkind⟩,
    fun o ho => ⟨(hmem' o ho).1, fun hkind => hnone ⟨o, ho, hkind⟩⟩⟩

/-! ## Values that are not negative -/

theorem Interp.nonNegative_values {I : Interp} {σ : State} {es : List Expr} :
    Datum.NonNegative (I.values σ es) ↔ ∀ e ∈ es, 0 ≤ (I.value σ e).toInt := by
  rw [Datum.NonNegative, values_eq_map]
  exact List.forall_mem_map

/-- If `C`, then the path started from ranking functions, none of which was negative. -/
def Procedure.Measured (f : Procedure) (p : Program) (I : Interp) (C : Prop) (id : Nat)
    (σ : State) : Prop :=
  f.Since p I (fun first ρ =>
    C → first.rankings ≠ [] ∧ Datum.NonNegative (I.values ρ first.rankings)) id σ

theorem Procedure.Measured.nonNegative {f : Procedure} {p : Program} {I : Interp}
    (hf : f.Checked p I) {C : Prop} {id : Nat} {σ : State} (h : f.Measured p I C id σ)
    {l : Location} (hl : f.location id = .ok l) (hC : C) (hhead : l.isLoopHead = true) :
    Datum.NonNegative (I.values σ l.rankings) := by
  by_cases hnil : l.rankings = []
  · rw [hnil]
    exact Interp.nonNegative_values.2 fun _ he => absurd he List.not_mem_nil
  · obtain ⟨start, ρ, first, harrived, hfirst, hmeasure⟩ := h
    have hdescending : f.Descending p I (I.values ρ first.rankings) id σ :=
      ⟨start, ρ, first, harrived, hfirst, (hmeasure hC).1, rfl, (hmeasure hC).2⟩
    exact (hdescending.drops hf.ranked hl hhead hnil).2.1

section Run
variable {p : Program} {I : Interp} {run : Nat → Stack} {F : Frame} (hf : F.procedure.Checked p I)
  (hstart : run 0 = ⟨F, []⟩) (hentry : F.location = F.procedure.entry) (hmeets : F.Meets I)
  {m n : Nat} (hrun : ∀ i < n, p.Step I (run i) (run (i + 1))) {first : Location}
  (hfirst : F.procedure.location (run m).top.location = .ok first) (hne : first.rankings ≠ [])
  (hhead : m = 0 ∨ first.isLoopHead = true) (hnonneg :
  Datum.NonNegative (I.values (run m).top.state first.rankings)) (hbetween : ∀ i, m < i → i < n →
  ∀ l, F.procedure.location (run i).top.location = .ok l → l.isLoopHead = true → l.rankings ≠ [])
include hf hstart hentry hmeets hrun hfirst hne hhead hnonneg hbetween

/-- Along the run: from the location with the number `m` on, every path starts from ranking
functions that are not negative. If that is a loop head, it is so only after it has been left. -/
theorem Program.run_measured {i : Nat} (hi : i ≤ n) :
    ∃ G, run i = ⟨G, []⟩ ∧ G.procedure = F.procedure ∧
    F.procedure.Measured p I (m = 0 ∨ m < i) G.location G.state := by
  induction i with
  | zero =>
    obtain ⟨l, hl, -⟩ := hf.wellFormed.entry
    refine ⟨F, hstart, rfl, F.procedure.entry, F.state, l, ?_, hl, ?_⟩
    · rw [hentry]
      exact Procedure.arrived_entry hf.wellFormed F.fits fun l hl => hmeets l (hentry ▸ hl)
    · rintro (rfl | h)
      · rw [hstart] at hfirst hnonneg
        rw [hentry, hl] at hfirst
        cases hfirst
        exact ⟨hne, hnonneg⟩
      · exact absurd h (Nat.not_lt_zero m)
  | succ i ih =>
    obtain ⟨G, hG, hprocedure, hmeasured⟩ := ih (by omega)
    have hstep := hrun i (by omega)
    rw [hG] at hstep
    obtain ⟨H, e, es, hH, hprocedure', hexit, hes, he, hlocation, hs⟩ :=
      hstep.inv_callFree (hprocedure ▸ hf.callFree)
    rw [hprocedure] at hprocedure' hexit hes
    obtain ⟨l, hl, -⟩ := Procedure.edges_eq_ok.1 hes
    refine ⟨H, hH, hprocedure', ?_⟩
    rw [hlocation]
    by_cases hloop : l.isLoopHead = true
    · refine hmeasured.head hes he hs hf.wellFormed hf.sound (hprocedure ▸ G.fits) hl hloop
        fun hD => ?_
      -- here the run is at the location `m`, or it has come from there
      by_cases hm : m = i
      · subst hm
        rw [hG] at hfirst hnonneg
        rw [hl] at hfirst
        cases hfirst
        exact ⟨hne, hnonneg⟩
      · have hlt : m < i := by omega
        exact ⟨hbetween i hlt (by omega) l (by rw [hG]; exact hl) hloop,
          hmeasured.nonNegative hf hl (Or.inr hlt) hloop⟩
    · have hloop := Bool.eq_false_iff.2 hloop
      have hnext := hmeasured.next hes he hs (hf.callFree.not_isCut hl hexit hloop)
      refine hnext.mono fun _ _ hmeasure hD => hmeasure ?_
      -- the run is not at the location `m`, unless it is the entry
      rcases hhead with hm | hhead
      · exact Or.inl hm
      · by_cases hm : m = i
        · subst hm
          rw [hG] at hfirst
          rw [hl] at hfirst
          cases hfirst
          exact absurd hhead (Bool.eq_false_iff.1 hloop)
        · omega

end Run

/-- **Ranking functions stay non-negative**: let the obligations of a procedure without calls be
valid, where each name is used at one sort, and consider a run from its entry, where the entry
conditions hold. If at the entry, or at a loop head that the run comes to, there are ranking
functions and none is negative, then none is negative at any loop head that it comes to later, as
long as it passes no loop head without ranking functions on the way. -/
theorem nonNegative_inherited {p : Program} {os : List Obligation} (hos : p.obligations = .ok os)
    {f : Procedure} (hf : f ∈ p.procedures) (hfree : f.CallFree) (hone : OneType f.vars)
    (hvalid : ∀ o ∈ os, o.procedure = f.name → p.Valid o.formula) {I : Interp}
    (hI : I.Satisfies p.table) {run : Nat → Stack} {F : Frame} (hstart : run 0 = ⟨F, []⟩)
    (hprocedure : F.procedure = f) (hentry : F.location = f.entry) (hmeets : F.Meets I) {m n : Nat}
    (hmn : m ≤ n) (hrun : ∀ i < n, p.Step I (run i) (run (i + 1))) {first last : Location}
    (hfirst : f.location (run m).top.location = .ok first)
    (hhead : m = 0 ∨ first.isLoopHead = true) (hne : first.rankings ≠ [])
    (hnonneg : ∀ e ∈ first.rankings, 0 ≤ (I.value (run m).top.state e).toInt)
    (hbetween : ∀ i, m < i → i < n → ∀ l, f.location (run i).top.location = .ok l →
      l.isLoopHead = true → l.rankings ≠ []) (hlast : f.location (run n).top.location = .ok last)
    (hloop : last.isLoopHead = true) :
    ∀ e ∈ last.rankings, 0 ≤ (I.value (run n).top.state e).toInt := by
  subst hprocedure
  have hchecked := Program.checked_of_obligations hos hf hfree hone hvalid hI
  rcases Nat.eq_or_lt_of_le hmn with rfl | hlt
  · rw [hfirst] at hlast
    cases hlast
    exact hnonneg
  · obtain ⟨G, hG, -, hmeasured⟩ := Program.run_measured hchecked hstart hentry hmeets hrun hfirst
      hne hhead (Interp.nonNegative_values.2 hnonneg) hbetween (Nat.le_refl n)
    rw [hG] at hlast ⊢
    exact Interp.nonNegative_values.1 (hmeasured.nonNegative hchecked hlast (Or.inr hlt) hloop)

namespace Counting

theorem count_vars : ∀ v ∈ count.vars, v.ty = .int := by decide

theorem fits_bind {σ : State} (hσ : σ.Fits count.vars) (k : Int) :
    State.Fits (σ.bind [r] [.int k]) count.vars :=
  OneType.fits_bind (by decide) (by decide) hσ rfl

/-- Once around the loop: `r` is 0 on the first arrival there, and 1 on the second. -/
def run : Nat → Stack
  | 0 => ⟨start count count_vars, []⟩
  | 1 => ⟨⟨count, 1, _, fits_bind (start count count_vars).fits 0⟩, []⟩
  | 2 => ⟨⟨count, 2, _, fits_bind (start count count_vars).fits 0⟩, []⟩
  | _ => ⟨⟨count, 1, _, fits_bind (fits_bind (start count count_vars).fits 0) 1⟩, []⟩

theorem run_step : ∀ i < 3, program.Step interp (run i) (run (i + 1))
  | 0, _ =>
    .edge (e := ⟨1, .assign r (.int 0)⟩) ⟨by decide, _, rfl,
      List.mem_cons_self⟩ (.assign r (.int 0) _) rfl rfl
  | 1, _ =>
    .edge (e := ⟨2, .assume (.binary .lt (.var r) (.var n))⟩) ⟨by decide,
      _, rfl, List.mem_cons_self⟩
      (.assume (by simp [Interp.Holds, BinOp.value, NameMap.bind, start, r, n])) rfl rfl
  | 2, _ =>
    .edge (e := ⟨1, .assign r (.binary .add (.var r) (.int 1))⟩) ⟨by decide, _, rfl,
      List.mem_cons_self⟩ (.assign r (.binary .add (.var r) (.int 1)) _) rfl rfl

end Counting

/-- The second time at the loop head the ranking function is not negative, since it was not at the
entry. -/
theorem nonNegative_inherited_count :
    (∀ i < 3, Counting.program.Step Counting.interp (Counting.run i) (Counting.run (i + 1))) ∧
    ∃ l, Counting.count.location (Counting.run 3).top.location = .ok l ∧ l.isLoopHead = true ∧
      l.rankings ≠ [] ∧
      ∀ e ∈ l.rankings, 0 ≤ (Counting.interp.value (Counting.run 3).top.state e).toInt := by
  obtain ⟨os, hos, hvalid⟩ := Counting.verified
  refine ⟨Counting.run_step, _, rfl, rfl, List.cons_ne_nil _ _, ?_⟩
  refine nonNegative_inherited hos List.mem_cons_self (by decide) (by decide)
    (fun o ho _ => hvalid o ho) Counting.satisfies (show Counting.run 0 = _ from rfl) rfl rfl ?_
    (Nat.zero_le 3) Counting.run_step (show Counting.count.location 0 = .ok _ from rfl) (Or.inl rfl)
    (List.cons_ne_nil _ _) ?_ ?_ rfl rfl
  · rintro _ ⟨⟩ a ha
    rw [List.mem_singleton.1 ha]
    simp [Interp.Holds, BinOp.value, Counting.start]
  · intro e he
    rw [List.mem_singleton.1 he]
    simp [BinOp.value, Counting.run, Counting.start]
  · have hheads : ∀ l ∈ Counting.count.locations, l.isLoopHead = true → l.rankings ≠ [] := by decide
    exact fun i _ _ l hl => hheads l (List.mem_of_getElem? (Procedure.location_eq_ok.1 hl))

namespace Countdown

def n : Var := ⟨"n", .int⟩

/-- The loop is ranked, and the entry is not. -/
def countdown : Procedure where
  name := "countdown"
  parameters := [n]
  results := []
  entry := 0
  exit := 3
  locations := [
    ⟨.entry [] [], [⟨1, .assume .tt⟩]⟩,
    ⟨.loopHead [] [.var n],
      [⟨2, .assume (.binary .gt (.var n) (.int 0))⟩, ⟨3, .assume (.binary .le (.var n) (.int 0))⟩]⟩,
    ⟨.plain, [⟨1, .assign n (.binary .sub (.var n) (.int 1))⟩]⟩,
    ⟨.exit [], []⟩]

def program : Program := ⟨[], [countdown]⟩

def conditions : List Expr := [
  .implies .tt (.implies .tt .tt),
  .implies .tt (.implies (.binary .le (.var n) (.int 0)) .tt),
  .implies .tt (.implies (.binary .gt (.var n) (.int 0)) .tt),
  .implies (.and .tt (.binary .ge (.var n) (.int 0))) (.implies (.binary .gt (.var n) (.int 0))
    (.and (.binary .lt (.binary .sub (.var n) (.int 1)) (.var n))
    (.binary .ge (.binary .sub (.var n) (.int 1)) (.int 0))))]

theorem exists_obligations :
    ∃ os, program.obligations = .ok os ∧ os.map Obligation.formula = conditions := ⟨_, rfl, rfl⟩

theorem conditions_valid (I : Interp) : ∀ e ∈ conditions, I.Valid e := by
  intro e he
  have hfree : ∀ e ∈ conditions, ∀ v ∈ e.free, v ∈ [n] := by decide
  refine (@Interp.valid_iff I e [] [n] (by decide) List.nodup_nil fun v hv =>
    Or.inr ⟨hfree e he v hv, List.not_mem_nil⟩).2 fun σ hσ ds _ => ?_
  rw [NameMap.bind_nil]
  have hn := Datum.eq_int (hσ n (by decide))
  revert e
  generalize (σ n.name).toInt = a at hn
  simp [conditions, Interp.Holds, BinOp.value, Expr.implies, Expr.and, Expr.tt, hn]
  omega

/-- A frame where the variable is -1. -/
def frame (id : Nat) : Frame := ⟨countdown, id, fun _ => .int (-1), fun v hv => by
  have hint : ∀ v ∈ countdown.vars, v.ty = .int := by decide
  exact (hint v hv).symm⟩

/-- All obligations are valid, and the first arrival at the loop is with a negative value. -/
theorem negative_arrival :
    ∃ os, program.obligations = .ok os ∧ (∀ o ∈ os, program.Valid o.formula) ∧
      countdown ∈ program.procedures ∧ countdown.CallFree ∧
      ∀ I : Interp, (frame 0).location = countdown.entry ∧ (frame 0).Meets I ∧
        program.Step I ⟨frame 0, []⟩ ⟨frame 1, []⟩ ∧
        ∃ l, countdown.location (frame 1).location = .ok l ∧ l.isLoopHead = true ∧
          ∃ e ∈ l.rankings, (I.value (frame 1).state e).toInt < 0 := by
  obtain ⟨os, hos, hformulas⟩ := exists_obligations
  refine ⟨os, hos, fun o ho I _ => conditions_valid I _ ?_, List.mem_cons_self, by decide,
    fun I => ⟨rfl, ?_, ?_, _, rfl, rfl, _, List.mem_singleton_self _, ?_⟩⟩
  · rw [← hformulas]
    exact List.mem_map_of_mem ho
  · rintro _ ⟨⟩ a ha
    cases ha
  · exact .edge (e := ⟨1, .assume .tt⟩) ⟨by decide, _, rfl,
      List.mem_cons_self⟩ (.assume rfl) rfl rfl
  · simp [frame]

end Countdown

end Cutpoint
