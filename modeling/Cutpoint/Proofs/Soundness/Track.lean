import Cutpoint.Proofs.Obligation

/-!
# Runs along basic paths

A run of a procedure has come from the start of a basic path, a location `start` where the state was
`ρ` and the annotations held, to a location `id` where the state is `σ` (`Procedure.Track`).

* `Procedure.Arrived`: every way on to a cut point, which may be `id` itself, completes a basic
  path;
* `Procedure.Ready`: with every edge out of `id` and every way on from there, this is a basic path.
  A run that has arrived is ready unless it is at a cut point, and at a loop head or call site it is
  ready for a path that starts there;
* `Procedure.Arrived.asks`, `Procedure.Arrived.annotations`, `Procedure.Ready.not_failed`: what
  soundness of the basic paths says about the run.
-/

set_option autoImplicit false

namespace Cutpoint

theorem BasicPath.edgesFrom_append {f : Procedure} {start : Nat} {steps rest : List (Nat × Nat)}
    {es js : List Edge} (h : edgesFrom f start steps = .ok es)
    (hrest : edgesFrom f (finish ⟨start, steps⟩) rest = .ok js) :
    edgesFrom f start (steps ++ rest) = .ok (es ++ js) := by
  induction steps generalizing start es with
  | nil =>
    cases h
    exact hrest
  | cons step steps ih =>
    obtain ⟨index, target⟩ := step
    rw [edgesFrom, bind_eq_ok] at h
    obtain ⟨ks, hks, h⟩ := h
    split at h
    · cases h
    · next e he =>
      rw [bind_eq_ok] at h
      obtain ⟨later, hlater, h⟩ := h
      cases h
      rw [finish_cons] at hrest
      rw [List.cons_append, edgesFrom, bind_eq_ok]
      refine ⟨ks, hks, ?_⟩
      rw [he]
      exact bind_eq_ok.2 ⟨_, ih hlater hrest, rfl⟩

namespace Procedure

/-- From every location a cut point is reached. -/
theorem WellFormed.exists_completes {f : Procedure} {p : Program} (hf : f.WellFormed p)
    (hedges : ∀ id es, f.edges id = .ok es → id ≠ f.exit → es ≠ []) {id : Nat} {l : Location}
    (hl : f.location id = .ok l) : ∃ steps, f.Completes id steps := by
  by_cases hhead : l.isLoopHead = true
  · exact ⟨[], .stop (Or.inr ⟨l, hl, Or.inr hhead⟩)⟩
  refine hf.induct (P := fun id => ∃ steps, f.Completes id steps)
    (fun id es hes htargets => ?_) hl (Bool.eq_false_iff.2 hhead)
  by_cases hcut : f.IsCut id
  · exact ⟨[], .stop hcut⟩
  · obtain ⟨e, rest, rfl⟩ := List.exists_cons_of_ne_nil (hedges id es hes fun h => hcut (Or.inl h))
    obtain ⟨m, hm, hor⟩ := htargets e List.mem_cons_self
    obtain ⟨steps, hsteps⟩ : ∃ steps, f.Completes e.target steps := by
      rcases hor with h | h
      · exact ⟨[], .stop (Or.inr ⟨m, hm, Or.inr h⟩)⟩
      · exact h
    exact ⟨(0, e.target) :: steps, .go hcut hes rfl hsteps⟩

/-- A run has come from the location `start`, in the state `ρ`, to the location `id` in the state
`σ`. -/
structure Track (f : Procedure) (p : Program) (I : Interp) (start : Nat) (ρ : State) (id : Nat)
    (σ : State) (steps : List (Nat × Nat)) (es : List Edge) : Prop where
  fits : ρ.Fits f.vars
  annotations : ∀ l, f.location start = .ok l → ∀ a ∈ l.annotations, I.Holds ρ a
  edges : BasicPath.edgesFrom f start steps = .ok es
  finish : BasicPath.finish ⟨start, steps⟩ = id
  executes : p.Executes I (es.map Edge.statement) ρ (.done σ)

/-- The run is on a basic path, which may end here. -/
def Arrived (f : Procedure) (p : Program) (I : Interp) (start : Nat) (ρ : State) (id : Nat)
    (σ : State) : Prop :=
  ∃ steps es, f.Track p I start ρ id σ steps es ∧ ∀ rest, f.Completes id rest →
    f.IsBasic ⟨start, steps ++ rest⟩

/-- The run is on a basic path, which goes on with every edge. -/
def Ready (f : Procedure) (p : Program) (I : Interp) (start : Nat) (ρ : State) (id : Nat)
    (σ : State) : Prop :=
  ∃ steps es, f.Track p I start ρ id σ steps es ∧ ∀ js index e, f.edges id = .ok js →
    js[index]? = some e →
    ∀ rest, f.Completes e.target rest → f.IsBasic ⟨start, steps ++ (index, e.target) :: rest⟩

section Run
variable {f : Procedure} {p : Program} {I : Interp} {start id : Nat} {ρ σ τ : State}
  {js : List Edge} {e : Edge} {l : Location}

theorem arrived_entry (hf : f.WellFormed p) (hσ : σ.Fits f.vars)
    (hannotations : ∀ l, f.location f.entry = .ok l → ∀ a ∈ l.annotations, I.Holds σ a) :
    f.Arrived p I f.entry σ f.entry σ :=
  ⟨[], [], ⟨hσ, hannotations, rfl, rfl, .nil σ⟩, fun _ hrest => hf.isBasic_entry hrest⟩

theorem Arrived.ready (h : f.Arrived p I start ρ id σ) (hcut : ¬ f.IsCut id) :
    f.Ready p I start ρ id σ := by
  obtain ⟨steps, es, htrack, hbasic⟩ := h
  exact ⟨steps, es, htrack, fun js index e hjs he rest hrest => hbasic _ (.go hcut hjs he hrest)⟩

theorem Arrived.starts (h : f.Arrived p I start ρ id σ) (hanchor : f.IsAnchor id) :
    f.Starts id := by
  obtain ⟨steps, es, htrack, hbasic⟩ := h
  have hpath := hbasic [] (.stop (Or.inr hanchor))
  rw [List.append_nil] at hpath
  exact htrack.finish ▸ hpath.starts_finish (htrack.finish.symm ▸ hanchor)

/-- At a loop head or a call site a path starts. -/
theorem Starts.ready (hstart : f.Starts id) (hσ : σ.Fits f.vars)
    (hannotations : ∀ l, f.location id = .ok l → ∀ a ∈ l.annotations, I.Holds σ a) :
    f.Ready p I id σ id σ :=
  ⟨[], [], ⟨hσ, hannotations, rfl, rfl, .nil σ⟩,
    fun _ _ _ hjs he _ hrest => Or.inr ⟨.mk hjs he hrest, hstart⟩⟩

theorem Ready.arrived (h : f.Ready p I start ρ id σ) (hjs : f.edges id = .ok js) (he : e ∈ js)
    (hs : p.Executes I [e.statement] σ (.done τ)) : f.Arrived p I start ρ e.target τ := by
  obtain ⟨steps, es, htrack, hbasic⟩ := h
  obtain ⟨index, hindex⟩ := List.mem_iff_getElem?.1 he
  refine ⟨steps ++ [(index, e.target)], es ++ [e], ⟨htrack.fits, htrack.annotations, ?_, ?_, ?_⟩,
    fun rest hrest => ?_⟩
  · exact BasicPath.edgesFrom_append htrack.edges
      (htrack.finish.symm ▸ BasicPath.edgesFrom_cons hjs hindex rfl)
  · exact BasicPath.finish_append_one _ _ _ _
  · rw [List.map_append]
    exact htrack.executes.append hs
  · rw [List.append_assoc]
    exact hbasic js index e hjs hindex rest hrest

/-- What a cut point asks for holds on arrival. -/
theorem Arrived.asks (h : f.Arrived p I start ρ id σ) (hf : f.WellFormed p) (hsound : f.Sound p I)
    (hcut : f.IsCut id) (hl : f.location id = .ok l) : l.Asks p I σ := by
  obtain ⟨steps, es, htrack, hbasic⟩ := h
  have hpath := hbasic [] (.stop hcut)
  rw [List.append_nil] at hpath
  obtain ⟨first, hfirst⟩ := hpath.location hf start List.mem_cons_self
  exact hsound _ es first l hpath htrack.edges hfirst (htrack.finish.symm ▸ hl) ρ htrack.fits
    (htrack.annotations first hfirst) _ htrack.executes

/-- On arrival at a location besides the entry its annotations hold. -/
theorem Arrived.annotations (h : f.Arrived p I start ρ id σ) (hf : f.WellFormed p)
    (hsound : f.Sound p I) (hl : f.location id = .ok l) (hentry : l.isEntry = false) :
    ∀ a ∈ l.annotations, I.Holds σ a := by
  intro a ha
  cases hkind : l.kind with
  | entry cs rs =>
    rw [Location.isEntry, hkind] at hentry
    cases hentry
  | exit cs =>
    have hexit : l.isExit = true := by rw [Location.isExit, hkind]
    exact (h.asks hf hsound (Or.inl (hf.exit_unique _ l hl hexit)) hl).1 (Or.inr hexit) a ha
  | loopHead is rs =>
    have hhead : l.isLoopHead = true := by rw [Location.isLoopHead, hkind]
    exact (h.asks hf hsound (Or.inr ⟨l, hl, Or.inr hhead⟩) hl).1 (Or.inl hhead) a ha
  | plain =>
    rw [Location.annotations, hkind] at ha
    cases ha

/-- On arrival at a loop head a path starts. -/
theorem Arrived.ready_head (h : f.Arrived p I start ρ id σ) (hf : f.WellFormed p)
    (hsound : f.Sound p I) (hσ : σ.Fits f.vars) (hl : f.location id = .ok l)
    (hhead : l.isLoopHead = true) : f.Ready p I id σ id σ := by
  have hanchor : f.IsAnchor id := ⟨l, hl, Or.inr hhead⟩
  refine (h.starts hanchor).ready hσ fun m hm => ?_
  rw [hl] at hm
  cases hm
  exact (h.asks hf hsound (Or.inr hanchor) hl).1 (Or.inl hhead)

/-- On arrival at a loop head the ranking functions have smaller values than those at the start
had. -/
theorem Arrived.drops (h : f.Arrived p I start ρ id σ) (hranked : f.Ranked p I) (hcut : f.IsCut id)
    {first : Location} (hfirst : f.location start = .ok first) (hl : f.location id = .ok l)
    (hfirstne : first.rankings ≠ []) (hhead : l.isLoopHead = true) (hne : l.rankings ≠ [])
    (hnonneg : Datum.NonNegative (I.values ρ first.rankings)) :
    Datum.Drops (I.values σ l.rankings) (I.values ρ first.rankings) := by
  obtain ⟨steps, es, htrack, hbasic⟩ := h
  have hpath := hbasic [] (.stop hcut)
  rw [List.append_nil] at hpath
  exact hranked _ es first l hpath htrack.edges hfirst (htrack.finish.symm ▸ hl) hfirstne hhead hne
    ρ htrack.fits (htrack.annotations first hfirst) hnonneg _ htrack.executes

/-- No assertion fails, as long as the path leads to a cut point. -/
theorem Ready.not_failed (h : f.Ready p I start ρ id σ) (hf : f.WellFormed p) (hsound : f.Sound p I)
    (hjs : f.edges id = .ok js) (he : e ∈ js) {rest : List (Nat × Nat)}
    (hrest : f.Completes e.target rest) : ¬ e.statement.Runs I σ .failed := by
  obtain ⟨steps, es, htrack, hbasic⟩ := h
  obtain ⟨index, hindex⟩ := List.mem_iff_getElem?.1 he
  have hpath := hbasic js index e hjs hindex rest hrest
  obtain ⟨first, hfirst⟩ := hpath.location hf start List.mem_cons_self
  obtain ⟨last, hlast⟩ := hpath.location hf _ (BasicPath.finish_mem_locations _)
  obtain ⟨ks, hks, -⟩ := hrest.edgesFrom
  have hedges := BasicPath.edgesFrom_append htrack.edges
    (htrack.finish.symm ▸ BasicPath.edgesFrom_cons hjs hindex hks)
  intro hs
  refine hsound _ _ first last hpath hedges hfirst hlast ρ htrack.fits
    (htrack.annotations first hfirst) .failed ?_
  rw [List.map_append]
  exact htrack.executes.append (.fail hs)

end Run

end Procedure

end Cutpoint
