import Cutpoint.Proofs.Flow.Exit
import Cutpoint.Proofs.Path.Search
import Cutpoint.Proofs.Soundness.Track

/-!
# What callers assume

A caller assumes the exit conditions of its callee, where it reads the parameters as the arguments
of the call. The callee shows them of the values that its variables have at the exit.

* `Procedure.Modular`: what makes the two agree. Above all, the exit conditions are about results
  and about parameters that no statement assigns;
* `Frame.Follows`: the invariant of a run, by which a frame is on a basic path and has what the
  paths that start where it is assume;
* `Program.Exits.meets`: so the exit conditions hold at the exit, by induction over the run and over
  the runs of its callees;
* `contract_kept`: what callers assume is true of every run to the exit. It need not be if a
  parameter of an exit condition is assigned (`Reset.contract_broken`).
-/

set_option autoImplicit false

namespace Cutpoint

/-! ## Procedures that are understood by their contracts -/

/-- If no edge leads to the entry, neither does the one that an entry without edges gets. -/
theorem Procedure.WellFormed.target_ne_entry {f : Procedure} {p : Program} (hf : f.WellFormed p)
    (hsource : ∀ l ∈ f.locations, ∀ e ∈ l.edges, e.target ≠ f.entry) {id : Nat} {es : List Edge}
    (hes : f.edges id = .ok es) {e : Edge} (he : e ∈ es) : e.target ≠ f.entry := by
  obtain ⟨l, hl, rfl⟩ := edges_eq_ok.1 hes
  split at he
  · rw [List.mem_singleton.1 he]
    exact hf.target_defaultEdge_ne_entry
  · exact hsource l (List.mem_of_getElem? (location_eq_ok.1 hl)) e he

/-- What is required of a procedure, besides its well-formedness, to be called by its contract. -/
structure Procedure.Modular (f : Procedure) (p : Program) : Prop where
  /-- Each name is used at one sort. -/
  oneType : OneType f.vars
  /-- Calls respect the sorts of parameters and results. -/
  calls : f.CallsFit p
  /-- Entry conditions are about parameters. -/
  entry : ∀ cs, f.entryConditions = .ok cs → ∀ c ∈ cs, ∀ v ∈ c.free, v ∈ f.parameters
  /-- Exit conditions are about results, and about parameters that are not assigned. -/
  exit : ∀ cs, f.exitConditions = .ok cs → ∀ c ∈ cs, ∀ v ∈ c.free, v ∈ f.results ∨
    (v ∈ f.parameters ∧ f.Keeps v)
  /-- No edge leads to an entry that is a call site. -/
  source : f.IsCallSite f.entry → ∀ l ∈ f.locations, ∀ e ∈ l.edges, e.target ≠ f.entry

namespace Procedure.Modular
variable {f : Procedure} {p : Program} (h : f.Modular p)
include h

theorem contractIn (S : List Var) : f.ContractIn S := by
  refine ⟨h.oneType.mono fun v hv => List.mem_append_left _ hv, fun cs hcs e he => ?_,
    fun cs hcs e he => ?_⟩
  · obtain ⟨l, hl, hann⟩ := bind_eq_ok.1 hcs
    cases hann
    exact ⟨OneType.scoped (h.oneType.mono fun v hv => mem_vars_of_mem_annotations hl he hv),
      fun v hv => Or.inl (h.entry _ hcs e he v hv)⟩
  · obtain ⟨l, hl, hann⟩ := bind_eq_ok.1 hcs
    cases hann
    refine ⟨OneType.scoped (h.oneType.mono fun v hv => mem_vars_of_mem_annotations hl he hv),
      fun v hv => Or.inl ?_⟩
    exact List.mem_append.2 ((h.exit _ hcs e he v hv).symm.imp_left And.left)

theorem inScope (hp : ∀ g ∈ p.procedures, g.Modular p) : f.InScope p f.vars :=
  ⟨h.oneType, fun _ hv => hv, fun _ hl _ he _ _ _ hs g hg =>
    ⟨(hp g (Program.mem_of_procedure hg)).contractIn _, (h.calls.call hl he hs hg).2⟩⟩

/-- The exit conditions do not tell apart the state at the exit and one where the results are the
same and the other variables are as before. -/
theorem holds_exit {cs : List Expr} (hcs : f.exitConditions = .ok cs) {I : Interp} {σ τ : State}
    (hτ : ∀ c ∈ cs, I.Holds τ c) (hkept : ∀ v ∈ f.parameters, f.Keeps v → τ v.name = σ v.name) :
    ∀ c ∈ cs, I.Holds (σ.bind f.results (τ.get f.results)) c := by
  intro c hc
  refine (Interp.holds_congr fun v hv => ?_).2 (hτ c hc)
  by_cases hn : v.name ∈ Var.names f.results
  · exact NameMap.bind_get_of_mem hn
  · obtain ⟨hparameter, hkeeps⟩ := (h.exit cs hcs c hc v hv).resolve_left fun hv =>
      hn (name_mem_names hv)
    rw [NameMap.bind_of_not_mem hn, hkept v hparameter hkeeps]

end Procedure.Modular

/-- The conditions at an exit, as they are seen from a frame that is there. -/
theorem Frame.Meets.exitConditions {F : Frame} {I : Interp} (h : F.Meets I)
    (hexit : F.location = F.procedure.exit) {cs : List Expr}
    (hcs : F.procedure.exitConditions = .ok cs) : ∀ c ∈ cs, I.Holds F.state c := by
  obtain ⟨l, hl, hann⟩ := bind_eq_ok.1 hcs
  cases hann
  exact h l (hexit ▸ hl)

/-- The results of a frame at its exit are as its exit conditions say. -/
theorem Frame.Meets.returns {F : Frame} {p : Program} {I : Interp} (h : F.Meets I)
    (hmodular : F.procedure.Modular p) (hf : F.procedure.WellFormed p)
    (hexit : F.location = F.procedure.exit) {arguments : List Var} {σ : State}
    (hkept : ∀ v ∈ F.procedure.parameters, F.procedure.Keeps v →
      F.state v.name = σ.bind F.procedure.parameters (σ.get arguments) v.name) :
    F.procedure.Returns I arguments σ (F.state.get F.procedure.results) := by
  obtain ⟨cs, hcs⟩ := hf.exists_exitConditions
  exact ⟨F.typed_results, cs, hcs, hmodular.holds_exit hcs (h.exitConditions hexit hcs) hkept⟩

/-! ## Frames -/

namespace Frame

structure Follows (F : Frame) (p : Program) (I : Interp) : Prop where
  /-- The frame has come along the beginning of a basic path. -/
  arrived : ∃ start ρ, F.procedure.Arrived p I start ρ F.location F.state
  /-- At an entry where paths start its conditions hold. -/
  callSite : F.location = F.procedure.entry → F.procedure.IsCallSite F.procedure.entry → F.Meets I

section Follows
variable {F : Frame} {p : Program} {I : Interp} (h : F.Follows p I)
  (hf : F.procedure.WellFormed p) (hsound : F.procedure.Sound p I)
include h hf hsound

/-- The annotations hold, if they do at the entry. -/
theorem Follows.meets_of_entry (hentry : F.location = F.procedure.entry → F.Meets I) :
    F.Meets I := by
  intro l hl
  obtain ⟨start, ρ, harrived⟩ := h.arrived
  by_cases hkind : l.isEntry = true
  · exact hentry (hf.entry_unique _ l hl hkind) l hl
  · exact harrived.annotations hf hsound hl (Bool.eq_false_iff.2 hkind)

/-- At a cut point the annotations hold. -/
theorem Follows.meets (hcut : F.procedure.IsCut F.location) : F.Meets I := by
  refine h.meets_of_entry hf hsound fun hid => h.callSite hid (hf.isAnchor_entry_iff.1 ?_)
  rw [hid] at hcut
  exact hcut.resolve_left hf.entry_ne_exit

/-- A frame that is not at the exit is ready to take an edge. -/
theorem Follows.ready (hexit : F.location ≠ F.procedure.exit) :
    ∃ start ρ, F.procedure.Ready p I start ρ F.location F.state := by
  obtain ⟨start, ρ, harrived⟩ := h.arrived
  by_cases hcut : F.procedure.IsCut F.location
  · have hmeets := h.meets hf hsound hcut
    exact ⟨_, _, (harrived.starts (hcut.resolve_left hexit)).ready F.fits hmeets⟩
  · exact ⟨start, ρ, harrived.ready hcut⟩

end Follows

end Frame

/-- What is known of a program whose procedures are modular and whose obligations are valid. -/
structure Program.Upheld (p : Program) (I : Interp) : Prop where
  wellFormed : ∀ f ∈ p.procedures, f.WellFormed p
  modular : ∀ f ∈ p.procedures, f.Modular p
  sound : ∀ f ∈ p.procedures, f.Sound p I

theorem Program.upheld_of_obligations {p : Program} {os : List Obligation}
    (h : p.obligations = .ok os) (hp : ∀ f ∈ p.procedures, f.Modular p) {I : Interp}
    (hI : I.Satisfies p.table) (hvalid : ∀ o ∈ os, p.Valid o.formula) : p.Upheld I :=
  ⟨wellFormed_of_validate (mem_obligations h).1, hp, fun f hf =>
    sound_of_obligations h hf ((hp f hf).inScope hp) fun o ho _ => hvalid o ho I hI⟩

namespace Frame
variable {p : Program} {I : Interp} (hp : p.Upheld I) {F G : Frame}
include hp

/-- A frame begins where the entry conditions hold. -/
theorem follows_entry (hF : F.procedure ∈ p.procedures) (hlocation : F.location = F.procedure.entry)
    (hmeets : F.Meets I) : F.Follows p I := by
  refine ⟨⟨F.procedure.entry, F.state, ?_⟩, fun _ _ => hmeets⟩
  rw [hlocation]
  exact Procedure.arrived_entry (hp.wellFormed _ hF) F.fits fun l hl => hmeets l (hlocation ▸ hl)

variable (hF : F.procedure ∈ p.procedures) (hfollows : F.Follows p I) {e : Edge} (he : F.Takes e)
include hF hfollows he

/-- The same frame after an edge has been taken, or after the call on the edge has returned. -/
theorem Follows.step (hprocedure : G.procedure = F.procedure) (hlocation : G.location = e.target)
    (hs : p.Executes I [e.statement] F.state (.done G.state)) : G.Follows p I := by
  obtain ⟨start, ρ, hready⟩ := hfollows.ready (hp.wellFormed _ hF) (hp.sound _ hF) he.1
  obtain ⟨es, hes, hmem⟩ := he.2
  refine ⟨⟨start, ρ, ?_⟩, fun hentry hcall => ?_⟩
  · rw [hprocedure, hlocation]
    exact hready.arrived hes hmem hs
  · rw [hprocedure, hlocation] at hentry
    rw [hprocedure] at hcall
    exact absurd hentry
      ((hp.wellFormed _ hF).target_ne_entry ((hp.modular _ hF).source hcall) hes hmem)

/-- At a call the entry conditions of the callee hold. -/
theorem Follows.accepts {lhs arguments : List Var} {name : String}
    (hs : e.statement = .call lhs name arguments) {g : Procedure} (hg : p.procedure name = .ok g) :
    g.Accepts I arguments F.state := by
  obtain ⟨start, ρ, harrived⟩ := hfollows.arrived
  obtain ⟨es, hes, hmem⟩ := he.2
  obtain ⟨l, hl, hmem⟩ := Procedure.mem_edges_of_call hes hmem (by rw [hs]; rfl)
  have hcall : l.hasCall = true := List.any_eq_true.2 ⟨e, hmem, by rw [hs]; rfl⟩
  exact (harrived.asks (hp.wellFormed _ hF) (hp.sound _ hF) (Or.inr ⟨l, hl, Or.inl hcall⟩) hl).2 e
    hmem lhs name arguments hs g hg

/-- So they hold in the frame of the callee. -/
theorem Follows.meets_callee {lhs arguments : List Var} {name : String}
    (hs : e.statement = .call lhs name arguments) (hG : p.procedure name = .ok G.procedure)
    (hlocation : G.location = G.procedure.entry) (hstate : ∀ x ∈ Var.names G.procedure.parameters,
      G.state x = F.state.bind G.procedure.parameters (F.state.get arguments) x) : G.Meets I := by
  intro l hl a ha
  have hcs : G.procedure.entryConditions = .ok l.annotations := by
    rw [Procedure.entryConditions, ← hlocation, hl]
    rfl
  refine (Interp.holds_congr fun v hv => hstate _ ?_).2 (hfollows.accepts hp hF he hs hG _ hcs a ha)
  exact name_mem_names ((hp.modular _ (Program.mem_of_procedure hG)).entry _ hcs a ha v hv)

end Frame

/-! ## Runs to the exit -/

/-- A run that follows basic paths comes to the exit with the exit conditions. The induction goes
through the runs of the callees, which give the results that the paths of the caller allow. -/
theorem Program.Exits.meets {p : Program} {I : Interp} (hp : p.Upheld I) {F H : Frame}
    (h : p.Exits I F H) (hF : F.procedure ∈ p.procedures) (hfollows : F.Follows p I) :
    H.Meets I := by
  induction h with
  | exit hexit => exact hfollows.meets (hp.wellFormed _ hF) (hp.sound _ hF) (Or.inl hexit)
  | edge he hs hprocedure hlocation hrest ih =>
    exact ih (hprocedure ▸ hF) (hfollows.step hp hF he hprocedure hlocation (.step hs (.nil _)))
  | @call F A B G H e lhs arguments name he hs hA hentry hσ hcallee hprocedure hlocation hτ hrest
      ihcallee ih =>
    have hmem := mem_of_procedure hA
    have hmeets := ihcallee hmem
      (Frame.follows_entry hp hmem hentry (hfollows.meets_callee hp hF he hs hA hentry hσ))
    have hsame := hcallee.procedure_eq
    have hreturns : B.procedure.Returns I arguments F.state (B.state.get B.procedure.results) := by
      refine hmeets.returns (hsame ▸ hp.modular _ hmem)
        (hsame ▸ hp.wellFormed _ hmem) hcallee.location_eq fun v hv hkeeps => ?_
      rw [hsame] at hv hkeeps ⊢
      rw [hcallee.unchanged hkeeps (Procedure.mem_vars_of_mem_parameters hv),
        hσ _ (name_mem_names hv)]
    refine ih (hprocedure ▸ hF) (hfollows.step hp hF he hprocedure hlocation ?_)
    rw [hs, hτ]
    exact .call (hsame ▸ hA) hreturns (.nil _)

/-- **Callers assume what callees show**: if all obligations of a program are valid, then at the end
of every run of a procedure from its entry to its exit the exit conditions hold with the values that
the parameters had at the entry. So what a call assumes is true, where the arguments have these
values, with the results of the run for the names that stand for them. -/
theorem contract_kept {p : Program} {os : List Obligation} (hos : p.obligations = .ok os)
    (hvalid : ∀ o ∈ os, p.Valid o.formula) (hmodular : ∀ f ∈ p.procedures, f.Modular p) {I : Interp}
    (hI : I.Satisfies p.table) {F G : Frame} (hF : F.procedure ∈ p.procedures)
    (hentry : F.location = F.procedure.entry) (hmeets : F.Meets I)
    (hrun : p.Reaches I ⟨F, []⟩ ⟨G, []⟩) (hexit : G.location = G.procedure.exit) :
    (∃ cs, F.procedure.exitConditions = .ok cs ∧
      ∀ a ∈ cs, I.Holds (F.state.bind F.procedure.results (G.state.get F.procedure.results)) a) ∧
    ∀ (c : PathContext) (lhs arguments : List Var) (name : String) (post : Expr) (N : Names),
      c.callee lhs name arguments = .ok F.procedure →
      (lhs = [] ∨ lhs.map Var.ty = F.procedure.results.map Var.ty) → (∀ v ∈ arguments, v.name ∈ N) →
      ∃ assumption rest ws N',
        Naming.Gives (c.weakestCall lhs name arguments post) N (.implies assumption rest) N' ∧
        Naming.New ws N N' ∧ ws.map Var.ty = F.procedure.results.map Var.ty ∧
        ∀ σ : State,
          (∀ x ∈ Var.names F.procedure.parameters,
            F.state x = σ.bind F.procedure.parameters (σ.get arguments) x) →
          I.Holds (σ.bind ws (G.state.get F.procedure.results)) assumption := by
  have hp := Program.upheld_of_obligations hos hmodular hI hvalid
  have hexits := hrun.exits hexit
  have hsame := hexits.procedure_eq
  have hG := hexits.meets hp hF (Frame.follows_entry hp hF hentry hmeets)
  obtain ⟨cs, hcs⟩ := (hp.wellFormed _ hF).exists_exitConditions
  have hkept : ∀ v ∈ F.procedure.parameters, F.procedure.Keeps v →
      G.state v.name = F.state v.name := fun v hv hkeeps =>
    hexits.unchanged hkeeps (Procedure.mem_vars_of_mem_parameters hv)
  have hholds := hG.exitConditions hexit (hsame ▸ hcs)
  refine ⟨⟨cs, hcs, (hmodular _ hF).holds_exit hcs hholds hkept⟩,
    fun c lhs arguments name post N hcallee hty hN => ?_⟩
  obtain ⟨assumption, rest, ws, N', hgives, hnew, hws, hmeans⟩ :=
    c.weakestCall_assumes hcallee ((hmodular _ hF).contractIn []) hcs hty post hN
  refine ⟨assumption, rest, ws, N', hgives, hnew, hws, fun σ hσ => (hmeans I σ _ ?_).2 ?_⟩
  · have htyped := G.typed_results
    rw [hsame] at htyped
    exact htyped.trans hws.symm
  · exact (hmodular _ hF).holds_exit hcs hholds
      fun v hv hkeeps => by rw [hkept v hv hkeeps, hσ _ (name_mem_names hv)]

/-! ## An example -/

/-- A variable is assigned again. -/
theorem Statement.Runs.assign_again {I : Interp} {v : Var} {e : Expr} {σ : State}
    {d d' : Datum} (he : I.value (σ.bind [v] [d]) e = d') :
    (Statement.assign v e).Runs I (σ.bind [v] [d]) (.done (σ.bind [v] [d'])) := by
  have h := Statement.Runs.assign (I := I) v e (σ.bind [v] [d])
  rwa [he, NameMap.bind_bind (by simp)] at h

namespace Counting

theorem count_modular : count.Modular program := by
  refine ⟨by decide, by decide, ?_, ?_, fun _ => by decide⟩
  · rintro _ ⟨⟩
    decide
  · rintro _ ⟨⟩
    decide

theorem main_modular : main.Modular program := by
  refine ⟨by decide, by decide, ?_, ?_, fun _ => by decide⟩
  · rintro _ ⟨⟩
    decide
  · rintro _ ⟨⟩
    decide

/-- The result is `k` and the parameter is 1. -/
def counted (k : Int) : State := NameMap.bind (fun _ => .int 1) [r] [.int k]

def frame (f : Procedure) (h : ∀ v ∈ f.vars, v = n ∨ v = r) (id : Nat) (k : Int) : Frame where
  procedure := f
  location := id
  state := counted k
  fits := by
    intro v hv
    rcases h v hv with rfl | rfl
    · rfl
    · rfl

def inCount : Nat → Int → Frame := frame count (by decide)

def inMain : Nat → Int → Frame := frame main (by decide)

/-- The callee counts to 1. -/
theorem reaches_count (W : List (Frame × Edge)) :
    program.Reaches interp ⟨inCount 0 0, W⟩ ⟨inCount 3 1, W⟩ := by
  have hinit : program.Step interp ⟨inCount 0 0, W⟩ ⟨inCount 1 0, W⟩ :=
    .edge ⟨by decide, _, rfl, List.mem_cons_self⟩ (.assign_again rfl) rfl rfl
  have hbody : program.Step interp ⟨inCount 1 0, W⟩ ⟨inCount 2 0, W⟩ :=
    .edge ⟨by decide, _, rfl, List.mem_cons_self⟩ (.assume rfl) rfl rfl
  have hnext : program.Step interp ⟨inCount 2 0, W⟩ ⟨inCount 1 1, W⟩ :=
    .edge ⟨by decide, _, rfl, List.mem_cons_self⟩ (.assign_again rfl) rfl rfl
  have hdone : program.Step interp ⟨inCount 1 1, W⟩ ⟨inCount 3 1, W⟩ :=
    .edge ⟨by decide, _, rfl, List.mem_cons_of_mem _ List.mem_cons_self⟩ (.assume rfl) rfl rfl
  exact .head hinit (.head hbody (.head hnext (.single hdone)))

def call : Edge := ⟨1, .call [r] "count" [n]⟩

/-- The caller takes the result and asserts that it is positive. -/
theorem reaches_main : program.Reaches interp ⟨inMain 0 0, []⟩ ⟨inMain 2 1, []⟩ := by
  have henter : program.Step interp ⟨inMain 0 0, []⟩ ⟨inCount 0 0, [(inMain 0 0, call)]⟩ :=
    .enter ⟨by decide, _, rfl, List.mem_cons_self⟩ rfl rfl rfl (List.forall_mem_singleton.2 rfl)
  have hleave : program.Step interp ⟨inCount 3 1, [(inMain 0 0, call)]⟩ ⟨inMain 1 1, []⟩ :=
    .leave rfl rfl rfl rfl (NameMap.bind_bind (by simp)).symm
  have hassert : program.Step interp ⟨inMain 1 1, []⟩ ⟨inMain 2 1, []⟩ :=
    .edge ⟨by decide, _, rfl, List.mem_cons_self⟩ (.assert rfl) rfl rfl
  exact .head henter ((reaches_count _).trans (.head hleave (.single hassert)))

theorem count_begins : (inCount 0 0).Meets interp := by
  rintro _ ⟨⟩ a ha
  rw [List.mem_singleton.1 ha]
  rfl

theorem main_begins : (inMain 0 0).Meets interp := by
  rintro _ ⟨⟩ a ha
  rw [List.mem_singleton.1 ha]
  rfl

theorem all_modular : ∀ f ∈ program.procedures, f.Modular program :=
  List.forall_mem_cons.2 ⟨count_modular, List.forall_mem_singleton.2 main_modular⟩

end Counting

/-- The run of the caller ends with its exit conditions, and what it assumes of the call is true of
the run of the callee. -/
theorem contract_kept_counting :
    (∃ cs, Counting.main.exitConditions = .ok cs ∧
      ∀ a ∈ cs, Counting.interp.Holds ((Counting.counted 0).bind Counting.main.results
        ((Counting.counted 1).get Counting.main.results)) a) ∧
    ∃ c, PathContext.of Counting.program Counting.main ⟨0, [(0, 1), (0, 2)]⟩ = .ok c ∧
      ∃ assumption rest ws N',
      Naming.Gives (c.weakestCall [Counting.r] "count" [Counting.n] .tt) c.names
        (.implies assumption rest) N' ∧
      Naming.New ws c.names N' ∧
      Counting.interp.Holds ((Counting.counted 0).bind ws [.int 1]) assumption := by
  obtain ⟨os, hos, hvalid⟩ := Counting.verified
  constructor
  · exact (contract_kept hos hvalid Counting.all_modular Counting.satisfies
      (F := Counting.inMain 0 0) (List.mem_cons_of_mem _ List.mem_cons_self) rfl
      Counting.main_begins Counting.reaches_main rfl).1
  · obtain ⟨-, hcalls⟩ := contract_kept hos hvalid Counting.all_modular Counting.satisfies
      (F := Counting.inCount 0 0) List.mem_cons_self rfl Counting.count_begins
      (Counting.reaches_count []) rfl
    obtain ⟨c, hc, hcallee, hnames⟩ :
        ∃ c, PathContext.of Counting.program Counting.main ⟨0, [(0, 1), (0, 2)]⟩ = .ok c ∧
          c.callee [Counting.r] "count" [Counting.n] = .ok Counting.count ∧
          ∀ v ∈ [Counting.n], v.name ∈ c.names :=
      ⟨_, rfl, rfl, by decide⟩
    obtain ⟨assumption, rest, ws, N', hgives, hnew, -, hholds⟩ :=
      hcalls c _ _ _ .tt c.names hcallee (Or.inr rfl) hnames
    exact ⟨c, hc, assumption, rest, ws, N', hgives, hnew,
      hholds (Counting.counted 0) (List.forall_mem_singleton.2 rfl)⟩

/-! ## A parameter that is assigned -/

namespace Reset

def n : Var := ⟨"n", .int⟩

def x : Var := ⟨"x", .int⟩

/-- Changes its own copy of the argument, and its exit condition is about the copy. -/
def reset : Procedure where
  name := "reset"
  parameters := [x]
  results := []
  entry := 0
  exit := 1
  locations :=
    [⟨.entry [] [], [⟨1, .assign x (.int 1)⟩]⟩, ⟨.exit [.binary .eq (.var x) (.int 1)], []⟩]

/-- Relies on the call to change its own variable. -/
def main : Procedure where
  name := "main"
  parameters := [n]
  results := []
  entry := 0
  exit := 1
  locations := [
    ⟨.entry [.binary .eq (.var n) (.int 0)] [], [⟨1, .call [] "reset" [n]⟩]⟩,
    ⟨.exit [.binary .eq (.var n) (.int 1)], []⟩]

def program : Program := ⟨[], [reset, main]⟩

def conditions : List Expr := [
  .implies .tt (.binary .eq (.int 1) (.int 1)),
  .implies (.binary .eq (.var n) (.int 0)) .tt,
  .implies (.binary .eq (.var n) (.int 0))
    (.implies (.binary .eq (.var n) (.int 1)) (.binary .eq (.var n) (.int 1)))]

theorem conditions_valid (I : Interp) : ∀ e ∈ conditions, I.Valid e := by
  intro e he σ _
  revert e
  simp [conditions, Interp.Holds, BinOp.value, Expr.implies, Expr.tt]

theorem verified : ∃ os, program.obligations = .ok os ∧ ∀ o ∈ os, program.Valid o.formula := by
  obtain ⟨os, hos, hformulas⟩ : ∃ os, program.obligations = .ok os ∧
      os.map Obligation.formula = conditions := ⟨_, rfl, rfl⟩
  refine ⟨os, hos, fun o ho I _ => conditions_valid I _ ?_⟩
  rw [← hformulas]
  exact List.mem_map_of_mem ho

/-- In the callee, at the location `id` and with the value `k` of its parameter. -/
def inReset (id : Nat) (k : Int) : Frame where
  procedure := reset
  location := id
  state := NameMap.bind (fun _ => .int 0) [x] [.int k]
  fits := by
    have hvars : ∀ v ∈ reset.vars, v = x := by decide
    intro v hv
    rw [hvars v hv]
    rfl

/-- All obligations are valid, but what the caller assumes of a call with the argument 0 is false
after the callee has run. -/
theorem contract_broken :
    (∃ os, program.obligations = .ok os ∧ ∀ o ∈ os, program.Valid o.formula) ∧
    ∃ c assumption rest, PathContext.of program main ⟨0, [(0, 1)]⟩ = .ok c ∧
      c.callee [] "reset" [n] = .ok reset ∧
      ((c.weakestCall [] "reset" [n] .tt).run c.names).1 = .ok (.implies assumption rest) ∧
      ∀ I : Interp, (inReset 0 0).Meets I ∧ program.Reaches I ⟨inReset 0 0, []⟩ ⟨inReset 1 1, []⟩ ∧
        (inReset 1 1).location = reset.exit ∧ ¬ I.Holds (fun _ => .int 0) assumption := by
  refine ⟨verified, _, .binary .eq (.var n) (.int 1), .tt, rfl, rfl, rfl,
    fun I => ⟨?_, ?_, rfl, ?_⟩⟩
  · rintro _ ⟨⟩ a ha
    cases ha
  · refine .single
      (.edge (e := ⟨1, .assign x (.int 1)⟩) ⟨by decide, _, rfl, List.mem_cons_self⟩ ?_ rfl rfl)
    exact .assign_again rfl
  · simp [Interp.Holds, BinOp.value]

end Reset

end Cutpoint
