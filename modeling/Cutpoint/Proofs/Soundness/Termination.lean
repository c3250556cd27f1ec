import Mathlib.Order.WellFounded
import Cutpoint.Proofs.Soundness.Track

/-!
# Soundness for termination

A procedure that calls no other, and whose entry and loop heads have ranking functions, has no
infinite run if its obligations are valid (`termination_soundness`).

A run is on its way from the start of a basic path (`Procedure.Since`) with certain values of the
ranking functions there (`Procedure.Descending`). On arrival at a loop head the values have become
smaller, and between loop heads every edge leads further in a graph without cycles.
-/

set_option autoImplicit false

namespace Cutpoint

/-! ## Where paths started -/

namespace Procedure

/-- The run is on a basic path that started, at a location and in a state, as `P` says. -/
def Since (f : Procedure) (p : Program) (I : Interp) (P : Location → State → Prop) (id : Nat)
    (σ : State) : Prop :=
  ∃ start ρ first, f.Arrived p I start ρ id σ ∧ f.location start = .ok first ∧ P first ρ

section Since
variable {f : Procedure} {p : Program} {I : Interp} {P : Location → State → Prop} {id : Nat}
  {σ τ : State} {js : List Edge} {e : Edge} (h : f.Since p I P id σ) (hjs : f.edges id = .ok js)
  (he : e ∈ js) (hs : e.statement.Runs I σ (.done τ))
include h

theorem Since.mono {Q : Location → State → Prop} (hPQ : ∀ l ρ, P l ρ → Q l ρ) :
    f.Since p I Q id σ := by
  obtain ⟨start, ρ, first, harrived, hfirst, hP⟩ := h
  exact ⟨start, ρ, first, harrived, hfirst, hPQ first ρ hP⟩

include hjs he hs

/-- Between cut points the path goes on. -/
theorem Since.next (hcut : ¬ f.IsCut id) : f.Since p I P e.target τ := by
  obtain ⟨start, ρ, first, harrived, hfirst⟩ := h
  exact ⟨start, ρ, first, (harrived.ready hcut).arrived hjs he (.step hs (.nil τ)), hfirst⟩

/-- At a loop head a path starts. -/
theorem Since.head (hf : f.WellFormed p) (hsound : f.Sound p I) (hσ : σ.Fits f.vars) {l : Location}
    (hl : f.location id = .ok l) (hhead : l.isLoopHead = true) {Q : Location → State → Prop}
    (hQ : Q l σ) : f.Since p I Q e.target τ := by
  obtain ⟨start, ρ, first, harrived, -⟩ := h
  have hready := harrived.ready_head hf hsound hσ hl hhead
  exact ⟨id, σ, l, hready.arrived hjs he (.step hs (.nil τ)), hl, hQ⟩

end Since

/-- The ranking functions at the start of the path had the values `ds`. -/
def Descending (f : Procedure) (p : Program) (I : Interp) (ds : List Datum) (id : Nat)
    (σ : State) : Prop :=
  f.Since p I (fun first ρ => first.rankings ≠ [] ∧ I.values ρ first.rankings = ds ∧
    Datum.NonNegative ds) id σ

/-- At a loop head the values are smaller. -/
theorem Descending.drops {f : Procedure} {p : Program} {I : Interp} {ds : List Datum} {id : Nat}
    {σ : State} (h : f.Descending p I ds id σ) (hranked : f.Ranked p I) {l : Location}
    (hl : f.location id = .ok l) (hhead : l.isLoopHead = true) (hne : l.rankings ≠ []) :
    Datum.Drops (I.values σ l.rankings) ds := by
  obtain ⟨start, ρ, first, harrived, hfirst, hfirstne, rfl, hnonneg⟩ := h
  have hcut : f.IsCut id := Or.inr ⟨l, hl, Or.inr hhead⟩
  exact harrived.drops hranked hcut hfirst hl hfirstne hhead hne hnonneg

end Procedure

/-! ## Runs without calls -/

theorem Program.Step.inv_callFree {p : Program} {I : Interp} {F : Frame} {L : Stack}
    (hfree : F.procedure.CallFree) (h : p.Step I ⟨F, []⟩ L) :
    ∃ G e es, L = ⟨G, []⟩ ∧ G.procedure = F.procedure ∧ F.location ≠ F.procedure.exit ∧
      F.procedure.edges F.location = .ok es ∧ e ∈ es ∧
      G.location = e.target ∧ e.statement.Runs I F.state (.done G.state) := by
  cases h with
  | @edge F G W e he hs hprocedure hlocation =>
    obtain ⟨es, hes, hmem⟩ := he.2
    exact ⟨G, e, es, rfl, hprocedure, he.1, hes, hmem, hlocation, hs⟩
  | enter he hs =>
    obtain ⟨es, hes, hmem⟩ := he.2
    cases hs ▸ hfree.edges hes _ hmem

/-- Without calls, a location that is neither exit nor loop head is no cut point. -/
theorem Procedure.CallFree.not_isCut {f : Procedure} (hfree : f.CallFree) {id : Nat} {l : Location}
    (hl : f.location id = .ok l) (hexit : id ≠ f.exit) (hhead : l.isLoopHead = false) :
    ¬ f.IsCut id := by
  rintro (hid | hanchor)
  · exact hexit hid
  · rcases (isAnchor_iff hl).1 hanchor with hcall | h
    · obtain ⟨e, he, hcall⟩ := List.any_eq_true.1 hcall
      exact absurd hcall
        (Bool.eq_false_iff.1 (hfree l (List.mem_of_getElem? (location_eq_ok.1 hl)) e he))
    · exact absurd h (Bool.eq_false_iff.1 hhead)

def Procedure.Ends (f : Procedure) (p : Program) (I : Interp) (ds : List Datum) (id : Nat) : Prop :=
  ∀ F : Frame, F.procedure = f → F.location = id → f.Descending p I ds id F.state →
    Acc (fun L K => p.Step I K L) ⟨F, []⟩

/-- What is known of a call-free procedure whose obligations are valid. -/
structure Procedure.Checked (f : Procedure) (p : Program) (I : Interp) : Prop where
  wellFormed : f.WellFormed p
  callFree : f.CallFree
  sound : f.Sound p I
  ranked : f.Ranked p I

theorem Program.checked_of_obligations {p : Program} {os : List Obligation}
    (h : p.obligations = .ok os) {f : Procedure} (hf : f ∈ p.procedures) (hfree : f.CallFree)
    (hone : OneType f.vars) (hvalid : ∀ o ∈ os, o.procedure = f.name → p.Valid o.formula)
    {I : Interp} (hI : I.Satisfies p.table) : f.Checked p I := by
  have hvalidI : ∀ o ∈ os, o.procedure = f.name → I.Valid o.formula :=
    fun o ho hname => hvalid o ho hname I hI
  exact ⟨wellFormed_of_validate (mem_obligations h).1 f hf, hfree,
    sound_of_obligations h hf (hfree.inScope p hone) hvalidI,
    ranked_of_obligations h hf hfree hone hvalidI⟩

/-- All loop heads have ranking functions. -/
structure Procedure.Terminating (f : Procedure) (p : Program) (I : Interp) : Prop extends
    f.Checked p I where
  heads : ∀ l ∈ f.locations, l.isLoopHead = true → l.rankings ≠ []

namespace Procedure.Terminating
variable {f : Procedure} {p : Program} {I : Interp} (hf : f.Terminating p I)
include hf

/-- From a loop head runs end if they do from smaller values. -/
theorem ends_head {ds : List Datum} (ih : ∀ cs, Datum.Drops cs ds → ∀ id, f.Ends p I cs id)
    {id : Nat} {l : Location} (hl : f.location id = .ok l) (hhead : l.isLoopHead = true) :
    f.Ends p I ds id := by
  rintro F rfl rfl h
  refine ⟨_, fun L hstep => ?_⟩
  obtain ⟨G, e, es, rfl, hG, -, hes, he, hlocation, hs⟩ := hstep.inv_callFree hf.callFree
  have hne := hf.heads l (List.mem_of_getElem? (location_eq_ok.1 hl)) hhead
  have hdrops := h.drops hf.ranked hl hhead hne
  refine ih _ hdrops _ G hG hlocation ?_
  exact h.head hes he hs hf.wellFormed hf.sound F.fits hl hhead ⟨hne, rfl, hdrops.2.1⟩

/-- From other locations runs end if they do from the locations that edges lead to. -/
theorem ends_plain {ds : List Datum} {id : Nat} {l : Location} (hl : f.location id = .ok l)
    (hhead : l.isLoopHead = false) {es : List Edge} (hes : f.edges id = .ok es)
    (htargets : ∀ e ∈ es, f.Ends p I ds e.target) : f.Ends p I ds id := by
  rintro F rfl rfl h
  refine ⟨_, fun L hstep => ?_⟩
  obtain ⟨G, e, es', rfl, hG, hexit, hes', he, hlocation, hs⟩ := hstep.inv_callFree hf.callFree
  rw [hes] at hes'
  cases hes'
  exact htargets e he G hG hlocation (h.next hes he hs (hf.callFree.not_isCut hl hexit hhead))

/-- Every run ends. The first induction is on the values at the start of the path, the second on the
graph between loop heads. -/
theorem ends (ds : List Datum) (id : Nat) : f.Ends p I ds id := by
  induction ds using Datum.drops_wellFounded.induction generalizing id with
  | _ ds ih =>
    cases hl : f.location id with
    | error fault =>
      rintro F rfl rfl h
      refine ⟨_, fun L hstep => ?_⟩
      obtain ⟨G, e, es, -, -, -, hes, -⟩ := hstep.inv_callFree hf.callFree
      obtain ⟨l, hl', -⟩ := edges_eq_ok.1 hes
      rw [hl] at hl'
      cases hl'
    | ok l =>
      by_cases hhead : l.isLoopHead = true
      · exact hf.ends_head ih hl hhead
      · refine hf.wellFormed.induct (fun id es hes htargets => ?_) hl (Bool.eq_false_iff.2 hhead)
        have htargets' : ∀ e ∈ es, f.Ends p I ds e.target := by
          intro e he
          obtain ⟨m, hm, h | h⟩ := htargets e he
          · exact hf.ends_head ih hm h
          · exact h
        obtain ⟨m, hm, -⟩ := edges_eq_ok.1 hes
        by_cases hhead : m.isLoopHead = true
        · exact hf.ends_head ih hm hhead
        · exact hf.ends_plain hm (Bool.eq_false_iff.2 hhead) hes htargets'

end Procedure.Terminating

/-- **Soundness for termination**: let a procedure without calls have ranking functions at its entry
and at all its loop heads. If its obligations are valid, then from no state where the entry
conditions hold and no ranking function of the entry is negative there is an infinite run.

A run goes through states where the variables of the procedure have values of their sorts
(`Frame.fits`), and also ends where an assignment would give a variable a value of another sort.
Where the sorts fit, the next edge can be taken (`Program.exists_edge`); for calls see
`Program.exists_enter` and `Program.exists_leave`. -/
theorem termination_soundness {p : Program} {os : List Obligation} (hos : p.obligations = .ok os)
    {f : Procedure} (hf : f ∈ p.procedures) (hfree : f.CallFree) (hone : OneType f.vars)
    {ranks : List Expr} (hranks : f.entryRankings = .ok ranks) (hne : ranks ≠ [])
    (hheads : ∀ l ∈ f.locations, l.isLoopHead = true → l.rankings ≠ [])
    (hvalid : ∀ o ∈ os, o.procedure = f.name → p.Valid o.formula) {I : Interp}
    (hI : I.Satisfies p.table) {F : Frame} (hprocedure : F.procedure = f)
    (hentry : F.location = f.entry) (hmeets : F.Meets I)
    (hnonneg : ∀ e ∈ ranks, 0 ≤ (I.value F.state e).toInt) :
    ¬ ∃ run : Nat → Stack, run 0 = ⟨F, []⟩ ∧ ∀ n, p.Step I (run n) (run (n + 1)) := by
  have hterminating : f.Terminating p I :=
    ⟨Program.checked_of_obligations hos hf hfree hone hvalid hI, hheads⟩
  subst hprocedure
  obtain ⟨l, hl, hann⟩ := bind_eq_ok.1 hranks
  cases hann
  have harrived : F.procedure.Arrived p I F.procedure.entry F.state F.procedure.entry F.state :=
    Procedure.arrived_entry hterminating.wellFormed F.fits fun m hm => hmeets m (hentry ▸ hm)
  have hdescending : F.procedure.Descending p I
      (I.values F.state l.rankings) F.procedure.entry F.state := by
    refine ⟨_, _, l, harrived, hl, hne, rfl, ?_⟩
    rw [Datum.NonNegative, Interp.values_eq_map]
    exact List.forall_mem_map.2 hnonneg
  intro hrun
  exact not_acc_iff_exists_descending_chain.2 hrun (hterminating.ends _ _ F rfl hentry hdescending)

/-- Counting up to 3 ends. -/
theorem termination_soundness_count :
    ¬ ∃ run : Nat → Stack, run 0 = ⟨Counting.start Counting.count (by decide), []⟩ ∧
      ∀ n, Counting.program.Step Counting.interp (run n) (run (n + 1)) := by
  obtain ⟨os, hos, hvalid⟩ := Counting.verified
  refine termination_soundness hos List.mem_cons_self (by decide) (by decide)
    (show Counting.count.entryRankings = .ok _ from rfl) (List.cons_ne_nil _ _) (by decide)
    (fun o ho _ => hvalid o ho) Counting.satisfies rfl rfl ?_ ?_
  · rintro _ ⟨⟩ a ha
    rw [List.mem_singleton.1 ha]
    simp [Interp.Holds, BinOp.value, Counting.start]
  · intro e he
    rw [List.mem_singleton.1 he]
    simp [BinOp.value, Counting.start]

end Cutpoint
