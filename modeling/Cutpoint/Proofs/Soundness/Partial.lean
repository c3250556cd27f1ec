import Cutpoint.Proofs.Soundness.Contract

/-!
# Soundness for partial correctness

If all obligations of a program are valid, then in every run the annotations hold wherever a frame
of the stack is, and no assertion fails (`partial_soundness`).

The invariant of a run (`Stack.Sound`) is that every frame is on a basic path (`Frame.Tracked`), and
that a frame that waits for a call still has the values that the callee's parameters got
(`Stack.Linked`). By that, the results of a call are as the callee's contract says.
-/

set_option autoImplicit false

namespace Cutpoint

/-! ## Programs that are understood -/

/-- What is required of a procedure besides its well-formedness. Exit conditions are about results
and any parameters, since none is assigned. -/
structure Procedure.Regular (f : Procedure) (p : Program) : Prop extends f.Modular p where
  /-- Parameters are not assigned. -/
  keeps : ∀ v ∈ f.parameters, f.Keeps v
  /-- No edge leads to the entry, call site or not. -/
  sourceEntry : ∀ l ∈ f.locations, ∀ e ∈ l.edges, e.target ≠ f.entry
  /-- An edge leaves every location but the exit. -/
  continues : ∀ id es, f.edges id = .ok es → id ≠ f.exit → es ≠ []

/-- Taking an edge keeps the values of parameters. -/
theorem Procedure.Regular.target_not_mem {f : Procedure} {p : Program} (h : f.Regular p) {id : Nat}
    {es : List Edge} (hes : f.edges id = .ok es) {e : Edge} (he : e ∈ es) {x : String}
    (hx : x ∈ Var.names f.parameters) : x ∉ Var.names e.statement.targets := by
  obtain ⟨v, hv, rfl⟩ := mem_names.1 hx
  exact (h.keeps v hv).not_mem_targets h.oneType (mem_vars_of_mem_parameters hv) hes he

/-! ## Frames -/

/-- A frame at its entry meets the conditions there, call site or not. -/
structure Frame.Tracked (F : Frame) (p : Program) (I : Interp) : Prop extends F.Follows p I where
  entry : F.location = F.procedure.entry → F.Meets I

/-- Where a frame has come to, the annotations hold. -/
theorem Frame.Tracked.meets {F : Frame} {p : Program} {I : Interp} (h : F.Tracked p I)
    (hf : F.procedure.WellFormed p) (hsound : F.procedure.Sound p I) : F.Meets I :=
  h.meets_of_entry hf hsound h.entry

/-- What is known of a program whose procedures are regular and whose obligations are valid. -/
structure Program.Verified (p : Program) (I : Interp) : Prop extends p.Upheld I where
  regular : ∀ f ∈ p.procedures, f.Regular p

theorem Program.verified_of_obligations {p : Program} {os : List Obligation}
    (h : p.obligations = .ok os) (hp : ∀ f ∈ p.procedures, f.Regular p) {I : Interp}
    (hI : I.Satisfies p.table) (hvalid : ∀ o ∈ os, p.Valid o.formula) : p.Verified I :=
  { upheld_of_obligations h (fun f hf => (hp f hf).toModular) hI hvalid with regular := hp }

namespace Frame
variable {p : Program} {I : Interp} (hp : p.Verified I) {F G : Frame}
  (hF : F.procedure ∈ p.procedures) (htracked : F.Tracked p I) {e : Edge} (he : F.Takes e)
include hp hF htracked he

/-- The same frame after an edge has been taken, or after the call on the edge has returned. -/
theorem Tracked.step (hprocedure : G.procedure = F.procedure) (hlocation : G.location = e.target)
    (hs : p.Executes I [e.statement] F.state (.done G.state)) : G.Tracked p I := by
  refine ⟨htracked.toFollows.step hp.toUpheld hF he hprocedure hlocation hs, fun hentry => ?_⟩
  obtain ⟨es, hes, hmem⟩ := he.2
  rw [hprocedure, hlocation] at hentry
  exact absurd hentry ((hp.wellFormed _ hF).target_ne_entry (hp.regular _ hF).sourceEntry hes hmem)

theorem Tracked.not_failed : ¬ e.statement.Runs I F.state .failed := by
  obtain ⟨start, ρ, hready⟩ := htracked.ready (hp.wellFormed _ hF) (hp.sound _ hF) he.1
  obtain ⟨es, hes, hmem⟩ := he.2
  obtain ⟨l, hl⟩ := (hp.wellFormed _ hF).target hes hmem
  obtain ⟨rest, hrest⟩ := (hp.wellFormed _ hF).exists_completes (hp.regular _ hF).continues hl
  exact hready.not_failed (hp.wellFormed _ hF) (hp.sound _ hF) hes hmem hrest

omit hF htracked he in
/-- A callee begins where its entry conditions hold. -/
theorem tracked_entry (hG : G.procedure ∈ p.procedures) (hlocation : G.location = G.procedure.entry)
    (hmeets : G.Meets I) : G.Tracked p I :=
  ⟨follows_entry hp.toUpheld hG hlocation hmeets, fun _ => hmeets⟩

end Frame

/-! ## Stacks -/

/-- The frame `G` executes the call on the edge `e` for `F`, and its parameters have the values of
the arguments. -/
def Frame.Called (p : Program) (G F : Frame) (e : Edge) : Prop :=
  F.Takes e ∧ ∃ lhs name arguments, e.statement = .call lhs name arguments ∧
    p.procedure name = .ok G.procedure ∧
    ∀ x ∈ Var.names G.procedure.parameters, G.state x =
    F.state.bind G.procedure.parameters (F.state.get arguments) x

/-- The results of a finished call are as the callee's exit conditions say. -/
theorem Frame.Called.returns {p : Program} {I : Interp} {F G : Frame} {e : Edge}
    (h : Frame.Called p G F e) (hG : G.procedure.WellFormed p) (hregular : G.procedure.Regular p)
    (hexit : G.location = G.procedure.exit) (hmeets : G.Meets I) {lhs arguments : List Var}
    {name : String} (hs : e.statement = .call lhs name arguments) :
    p.Executes I [e.statement] F.state
      (.done (F.state.bind lhs (G.state.get G.procedure.results))) := by
  obtain ⟨-, lhs', name', arguments', hs', hprocedure, hparameters⟩ := h
  rw [hs] at hs'
  cases hs'
  rw [hs]
  exact .call hprocedure (hmeets.returns hregular.toModular hG hexit fun v hv _ =>
    hparameters _ (name_mem_names hv)) (.nil _)

namespace Stack

/-- Every frame executes the call that the one below waits for. -/
def Linked (p : Program) : Frame → List (Frame × Edge) → Prop
  | _, [] => True
  | G, (F, e) :: W => Frame.Called p G F e ∧ Linked p F W

/-- Only the values of parameters matter. -/
theorem Linked.congr {p : Program} {F G : Frame} {W : List (Frame × Edge)}
    (h : Linked p F W) (hprocedure : G.procedure = F.procedure)
    (hstate : ∀ x ∈ Var.names F.procedure.parameters, G.state x = F.state x) : Linked p G W := by
  cases W with
  | nil => trivial
  | cons w W =>
    obtain ⟨⟨htakes, lhs, name, arguments, hs, hg, hparameters⟩, hrest⟩ := h
    refine ⟨⟨htakes, lhs, name, arguments, hs, by rw [hprocedure, hg], fun x hx => ?_⟩, hrest⟩
    rw [hprocedure] at hx ⊢
    rw [hstate x hx, hparameters x hx]

structure Sound (K : Stack) (p : Program) (I : Interp) : Prop where
  frames : ∀ F ∈ K.frames, F.procedure ∈ p.procedures ∧ F.Tracked p I
  linked : Linked p K.top K.waiting

theorem Sound.step {p : Program} {I : Interp} (hp : p.Verified I) {K L : Stack} (h : K.Sound p I)
    (hstep : p.Step I K L) : L.Sound p I := by
  obtain ⟨hframes, hlinked⟩ := h
  cases hstep with
  | @edge F G W e he hs hprocedure hlocation =>
    obtain ⟨⟨hF, htracked⟩, hwaiting⟩ := List.forall_mem_cons.1 hframes
    obtain ⟨es, hes, hmem⟩ := he.2
    refine ⟨List.forall_mem_cons.2 ⟨⟨hprocedure ▸ hF, ?_⟩, hwaiting⟩,
      hlinked.congr hprocedure fun x hx => ?_⟩
    · exact htracked.step hp hF he hprocedure hlocation (.step hs (.nil _))
    · exact hs.unchanged ((hp.regular _ hF).target_not_mem hes hmem hx)
  | @enter F G W e lhs arguments name he hs hprocedure hlocation hstate =>
    obtain ⟨hF, htracked⟩ := hframes F List.mem_cons_self
    have hG := Program.mem_of_procedure hprocedure
    have hmeets := htracked.meets_callee hp.toUpheld hF he hs hprocedure hlocation hstate
    exact ⟨List.forall_mem_cons.2 ⟨⟨hG, Frame.tracked_entry hp hG hlocation hmeets⟩, hframes⟩,
      ⟨he, lhs, name, arguments, hs, hprocedure, hstate⟩, hlinked⟩
  | @leave F G H W e lhs arguments name hexit hs hprocedure hlocation hstate =>
    obtain ⟨⟨hG, htrackedG⟩, hrest⟩ := List.forall_mem_cons.1 hframes
    obtain ⟨⟨hF, htracked⟩, hwaiting⟩ := List.forall_mem_cons.1 hrest
    obtain ⟨hcalled, hlinked⟩ := hlinked
    have hmeets := htrackedG.meets (hp.wellFormed _ hG) (hp.sound _ hG)
    have hreturns := hcalled.returns (hp.wellFormed _ hG) (hp.regular _ hG) hexit hmeets hs
    rw [← hstate] at hreturns
    obtain ⟨es, hes, hmem⟩ := hcalled.1.2
    refine ⟨List.forall_mem_cons.2 ⟨⟨hprocedure ▸ hF, ?_⟩, hwaiting⟩,
      hlinked.congr hprocedure fun x hx => ?_⟩
    · exact htracked.step hp hF hcalled.1 hprocedure hlocation hreturns
    · exact hreturns.unchanged (by simpa using (hp.regular _ hF).target_not_mem hes hmem hx)

theorem Sound.reaches {p : Program} {I : Interp} (hp : p.Verified I) {K L : Stack} (h : K.Sound p I)
    (hrun : p.Reaches I K L) : L.Sound p I := by
  induction hrun with
  | refl => exact h
  | tail _ hstep ih => exact ih.step hp hstep

end Stack

/-- **Soundness for partial correctness**: if all obligations of a program are valid, then in every
run from an entry where the conditions hold no assertion fails, and the annotations of its location
hold in every frame: entry conditions in every callee at its entry, invariants at every loop head,
and exit conditions at every exit.

A run goes through states where the variables of a procedure have values of their sorts
(`Frame.fits`), and ends where an assignment would give a variable a value of another sort. Where
the sorts fit, it goes on: `Program.exists_edge`, `Program.exists_enter`, `Program.exists_leave`. -/
theorem partial_soundness {p : Program} {os : List Obligation} (hos : p.obligations = .ok os)
    (hvalid : ∀ o ∈ os, p.Valid o.formula) (hregular : ∀ f ∈ p.procedures, f.Regular p) {I : Interp}
    (hI : I.Satisfies p.table) {F : Frame} (hF : F.procedure ∈ p.procedures)
    (hentry : F.location = F.procedure.entry) (hmeets : F.Meets I) {K : Stack}
    (hrun : p.Reaches I ⟨F, []⟩ K) : ¬ K.Fails I ∧ ∀ G ∈ K.frames, G.Meets I := by
  have hp := Program.verified_of_obligations hos hregular hI hvalid
  have hstart : Stack.Sound ⟨F, []⟩ p I :=
    ⟨List.forall_mem_singleton.2 ⟨hF, Frame.tracked_entry hp hF hentry hmeets⟩, trivial⟩
  have hK := hstart.reaches hp hrun
  constructor
  · rintro ⟨e, he, hfailed⟩
    obtain ⟨hG, htracked⟩ := hK.frames K.top List.mem_cons_self
    exact htracked.not_failed hp hG he hfailed
  · intro G hG
    obtain ⟨hG, htracked⟩ := hK.frames G hG
    exact htracked.meets (hp.wellFormed _ hG) (hp.sound _ hG)

/-! ## An example -/

namespace Counting

theorem count_regular : count.Regular program := by
  refine { count_modular with keeps := by decide, sourceEntry := by decide, continues := ?_ }
  rintro (_ | _ | _ | _ | id) es hes hid
  · cases hes
    exact List.cons_ne_nil _ _
  · cases hes
    exact List.cons_ne_nil _ _
  · cases hes
    exact List.cons_ne_nil _ _
  · exact absurd rfl hid
  · cases hes

theorem main_regular : main.Regular program := by
  refine { main_modular with keeps := by decide, sourceEntry := by decide, continues := ?_ }
  rintro (_ | _ | _ | id) es hes hid
  · cases hes
    exact List.cons_ne_nil _ _
  · cases hes
    exact List.cons_ne_nil _ _
  · exact absurd rfl hid
  · cases hes

/-- In the callee, right after the call. -/
def called : Stack := ⟨start count (by decide), [(start main (by decide), call)]⟩

theorem reaches_called : program.Reaches interp ⟨start main (by decide), []⟩ called := by
  refine .single (.enter (e := call) ⟨by decide, _, rfl, List.mem_cons_self⟩ rfl rfl rfl ?_)
  intro x hx
  rw [List.mem_singleton.1 hx]
  rfl

theorem main_meets : (start main (by decide)).Meets interp := by
  rintro _ ⟨⟩ a ha
  rw [List.mem_singleton.1 ha]
  simp [Interp.Holds, BinOp.value, start]

end Counting

/-- In the callee its entry conditions hold, and while it runs those of the caller still do. -/
theorem partial_soundness_called :
    Counting.program.Reaches Counting.interp
      ⟨Counting.start Counting.main (by decide), []⟩ Counting.called ∧
    ¬ Counting.called.Fails Counting.interp ∧
    ∀ G ∈ Counting.called.frames, G.Meets Counting.interp := by
  obtain ⟨os, hos, hvalid⟩ := Counting.verified
  refine ⟨Counting.reaches_called, partial_soundness hos hvalid ?_ Counting.satisfies
    (List.mem_cons_of_mem _ List.mem_cons_self) rfl Counting.main_meets Counting.reaches_called⟩
  exact List.forall_mem_cons.2 ⟨Counting.count_regular,
    List.forall_mem_singleton.2 Counting.main_regular⟩

end Cutpoint
