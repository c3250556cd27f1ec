import Cutpoint.Proofs.Flow.Run

/-!
# Runs to the exit

* `Program.Exits`: a frame runs to the exit of its procedure. A call is one step of it, in which the
  callee runs to its own exit;
* `Program.Reaches.exits`: every run of a frame alone, step by step and with a stack, that ends at
  the exit with no frame waiting is of this form;
* `Program.Exits.unchanged`: what no statement of the procedure assigns (`Procedure.Keeps`) has its
  value still at the exit.
-/

set_option autoImplicit false

namespace Cutpoint

/-! ## Variables that are not assigned -/

/-- No statement of the procedure assigns the variable. -/
def Procedure.Keeps (f : Procedure) (v : Var) : Prop :=
  ∀ l ∈ f.locations, ∀ e ∈ l.edges, v ∉ e.statement.targets

instance (f : Procedure) (v : Var) : Decidable (f.Keeps v) :=
  inferInstanceAs (Decidable (∀ l ∈ f.locations, ∀ e ∈ l.edges, v ∉ e.statement.targets))

theorem Procedure.Keeps.not_mem_targets {f : Procedure} {v : Var} (h : f.Keeps v)
    (hone : OneType f.vars) (hv : v ∈ f.vars) {id : Nat} {es : List Edge}
    (hes : f.edges id = .ok es) {e : Edge} (he : e ∈ es) :
    v.name ∉ Var.names e.statement.targets := by
  intro hname
  obtain ⟨w, hw, hwv⟩ := mem_names.1 hname
  have hwvars :=
    mem_vars_of_edges hes he (Statement.mem_vars_of_mem_free (Statement.mem_free_of_mem_targets hw))
  obtain rfl : w = v := hone w hwvars v hv hwv
  obtain ⟨l, hl, rfl⟩ := edges_eq_ok.1 hes
  split at he
  · rw [List.mem_singleton.1 he] at hw
    cases hw
  · exact h l (List.mem_of_getElem? (location_eq_ok.1 hl)) e he hw

/-- Where every variable has a value of its sort, each name has one sort. -/
theorem State.Fits.oneType {σ : State} {vs : List Var} (h : σ.Fits vs) : OneType vs := by
  rintro ⟨x, s⟩ hv ⟨y, t⟩ hw rfl
  obtain rfl : s = t := (h _ hv).symm.trans (h _ hw)
  rfl

namespace Program

/-! ## Calls as single steps -/

/-- The frame runs to the exit, where it is `H`. -/
inductive Exits (p : Program) (I : Interp) : Frame → Frame → Prop
  | exit {F : Frame} (hexit : F.location = F.procedure.exit) : Exits p I F F
  | edge {F G H : Frame} {e : Edge} (he : F.Takes e)
      (hs : e.statement.Runs I F.state (.done G.state)) (hp : G.procedure = F.procedure)
      (hl : G.location = e.target) (hrest : Exits p I G H) : Exits p I F H
  | call {F A B G H : Frame} {e : Edge} {lhs arguments : List Var} {name : String} (he : F.Takes e)
      (hs : e.statement = .call lhs name arguments) (hA : p.procedure name = .ok A.procedure)
      (hentry : A.location = A.procedure.entry) (hσ : ∀ x ∈ Var.names A.procedure.parameters,
        A.state x = F.state.bind A.procedure.parameters (F.state.get arguments) x)
      (hcallee : Exits p I A B) (hp : G.procedure = F.procedure) (hl : G.location = e.target)
      (hτ : G.state = F.state.bind lhs (B.state.get B.procedure.results)) (hrest : Exits p I G H) :
      Exits p I F H

variable {p : Program} {I : Interp}

theorem Exits.procedure_eq {F H : Frame} (h : p.Exits I F H) : H.procedure = F.procedure := by
  induction h with
  | exit => rfl
  | edge _ _ hp _ _ ih => rw [ih, hp]
  | call _ _ _ _ _ _ hp _ _ _ _ ih => rw [ih, hp]

theorem Exits.location_eq {F H : Frame} (h : p.Exits I F H) : H.location = H.procedure.exit := by
  induction h with
  | exit hexit => exact hexit
  | edge _ _ _ _ _ ih => exact ih
  | call _ _ _ _ _ _ _ _ _ _ _ ih => exact ih

theorem Exits.unchanged {F H : Frame} (h : p.Exits I F H) {v : Var} (hkeeps : F.procedure.Keeps v)
    (hv : v ∈ F.procedure.vars) : H.state v.name = F.state v.name := by
  induction h with
  | exit => rfl
  | @edge F G H e he hs hp hl hrest ih =>
    obtain ⟨es, hes, hmem⟩ := he.2
    rw [ih (hp ▸ hkeeps) (hp ▸ hv),
      hs.unchanged (hkeeps.not_mem_targets F.fits.oneType hv hes hmem)]
  | @call F A B G H e lhs arguments name he hs hA hentry hσ hcallee hp hl hτ hrest _ ih =>
    obtain ⟨es, hes, hmem⟩ := he.2
    have hname := hkeeps.not_mem_targets F.fits.oneType hv hes hmem
    rw [hs] at hname
    rw [ih (hp ▸ hkeeps) (hp ▸ hv), hτ]
    exact NameMap.bind_of_not_mem hname

/-! ## Runs with a stack -/

/-- The frame runs to its exit, then the frame below with the results, and so on, until the last
frame is at its exit as `H`. -/
def Unwinds (p : Program) (I : Interp) (H : Frame) : Frame → List (Frame × Edge) → Prop
  | F, [] => p.Exits I F H
  | A, (F, e) :: W =>
    ∃ B G lhs name arguments, p.Exits I A B ∧ e.statement = .call lhs name arguments ∧
      G.procedure = F.procedure ∧ G.location = e.target ∧
      G.state = F.state.bind lhs (B.state.get B.procedure.results) ∧
      Unwinds p I H G W

/-- What the frame does first may be put before. -/
theorem Unwinds.cons {H F G : Frame} {W : List (Frame × Edge)} (h : p.Unwinds I H G W)
    (hfirst : ∀ B, p.Exits I G B → p.Exits I F B) : p.Unwinds I H F W := by
  cases W with
  | nil => exact hfirst H h
  | cons w W =>
    obtain ⟨B, G', lhs, name, arguments, hB, hrest⟩ := h
    exact ⟨B, G', lhs, name, arguments, hfirst B hB, hrest⟩

theorem Step.unwinds {K L : Stack} (hstep : p.Step I K L) {H : Frame}
    (h : p.Unwinds I H L.top L.waiting) : p.Unwinds I H K.top K.waiting := by
  cases hstep with
  | edge he hs hp hl => exact h.cons fun B hB => .edge he hs hp hl hB
  | enter he hs hp hl hσ =>
    obtain ⟨B, G, lhs', name', arguments', hcallee, hs', hp', hl', hτ, hrest⟩ := h
    rw [hs] at hs'
    cases hs'
    exact hrest.cons fun C hC => .call he hs hp hl hσ hcallee hp' hl' hτ hC
  | leave hexit hs hp hl hτ => exact ⟨_, _, _, _, _, .exit hexit, hs, hp, hl, hτ, h⟩

/-- Every run of a frame to its exit is one with calls as single steps. -/
theorem Reaches.exits {F H : Frame} (h : p.Reaches I ⟨F, []⟩ ⟨H, []⟩)
    (hexit : H.location = H.procedure.exit) : p.Exits I F H := by
  have hunwinds : ∀ K, p.Reaches I K ⟨H, []⟩ → p.Unwinds I H K.top K.waiting := by
    intro K hK
    induction hK using Relation.ReflTransGen.head_induction_on with
    | refl => exact .exit hexit
    | head hstep _ ih => exact hstep.unwinds ih
  exact hunwinds _ h

end Program

end Cutpoint
