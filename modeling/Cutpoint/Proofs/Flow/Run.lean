import Mathlib.Logic.Relation
import Cutpoint.Condition.Context
import Cutpoint.Proofs.Flow.WellFormed
import Cutpoint.Proofs.Meaning.Basic

/-!
# Runs of programs

* `Statement.vars`, `Procedure.vars`, `Program.vars`: all variables in use, and
  `Procedure.CallsFit`: calls respect the sorts of formal variables;
* `Statement.Runs`: what a statement other than a call does to a state, and `Outcome`: an assertion
  may fail;
* `Program.Executes`: the statements of a path one after the other, where a call is known by its
  contract (`Procedure.Returns`), and `Location.Asks`: what has to hold at the end of a path;
* `Program.Step`: one step of a program, with a stack of frames. A call runs the callee in a frame
  of its own, which starts with the values of the arguments and arbitrary values of all other
  variables, and at the callee's exit its results are copied.

A frame's state gives every variable of its procedure a value of the variable's sort. That keeps no
step from being taken where assigned values, arguments and results have the sorts of the variables
they go to (`Program.exists_edge`, `Program.exists_enter`, `Program.exists_leave`).
-/

set_option autoImplicit false

namespace Cutpoint

/-! ## Variables in use -/

def Statement.vars : Statement → List Var
  | assign v e => v :: e.vars
  | assignAt a i e => a :: (i.vars ++ e.vars)
  | assume e => e.vars
  | assert e => e.vars
  | call lhs _ args => lhs ++ args

/-- The variables that a statement reads or assigns. -/
def Statement.free : Statement → List Var
  | assign v e => v :: e.free
  | assignAt a i e => a :: (i.free ++ e.free)
  | assume e => e.free
  | assert e => e.free
  | call lhs _ args => lhs ++ args

/-- The variables that a statement assigns. -/
def Statement.targets : Statement → List Var
  | assign v _ => [v]
  | assignAt a _ _ => [a]
  | assume _ | assert _ => []
  | call lhs _ _ => lhs

def Statement.Scoped : Statement → Prop
  | assign _ e => e.Scoped
  | assignAt _ i e => i.Scoped ∧ e.Scoped
  | assume e => e.Scoped
  | assert e => e.Scoped
  | call _ _ _ => True

theorem Statement.mem_vars_of_mem_free {s : Statement} {v : Var} (h : v ∈ s.free) : v ∈ s.vars := by
  cases s with
  | assign w e => exact (List.mem_cons.1 h).elim (fun h => h ▸ List.mem_cons_self) fun h =>
      List.mem_cons_of_mem _ (Expr.mem_vars_of_mem_free h)
  | assignAt a i e =>
    simp only [free, vars, List.mem_cons, List.mem_append] at h ⊢
    exact h.imp_right (Or.imp Expr.mem_vars_of_mem_free Expr.mem_vars_of_mem_free)
  | assume e | assert e => exact Expr.mem_vars_of_mem_free h
  | call lhs name args => exact h

theorem Statement.name_mem_names {s : Statement} {v : Var} (h : v ∈ s.free) : v.name ∈ s.names := by
  have hexpr : ∀ {e : Expr}, v ∈ e.free → v.name ∈ e.freeNames :=
    fun h => Expr.mem_freeNames.2 ⟨v, h, rfl⟩
  cases s with
  | assign w e =>
    exact (List.mem_cons.1 h).elim (fun h => h ▸ List.mem_cons_self) fun h =>
      List.mem_cons_of_mem _ (hexpr h)
  | assignAt a i e =>
    simp only [free, names, List.mem_cons, List.mem_append] at h ⊢
    exact h.imp (fun h => by rw [h]) (Or.imp hexpr hexpr)
  | assume e | assert e => exact hexpr h
  | call lhs name args =>
    exact List.mem_append.2
      ((List.mem_append.1 h).imp Cutpoint.name_mem_names Cutpoint.name_mem_names)

theorem Statement.mem_free_of_mem_targets {s : Statement} {v : Var} (h : v ∈ s.targets) :
    v ∈ s.free := by
  cases s with
  | assign w e => exact List.mem_singleton.1 h ▸ List.mem_cons_self
  | assignAt a i e => exact List.mem_singleton.1 h ▸ List.mem_cons_self
  | assume e | assert e => cases h
  | call lhs name args => exact List.mem_append_left _ h

theorem OneType.scoped_statement {s : Statement} (h : OneType s.vars) : s.Scoped := by
  cases s with
  | assign v e => exact OneType.scoped (h.mono fun _ => List.mem_cons_of_mem _)
  | assignAt a i e =>
    exact ⟨OneType.scoped (h.mono fun _ hv => List.mem_cons_of_mem _ (List.mem_append_left _ hv)),
      OneType.scoped (h.mono fun _ hv => List.mem_cons_of_mem _ (List.mem_append_right _ hv))⟩
  | assume e | assert e => exact OneType.scoped h
  | call lhs name args => trivial

def Location.vars (l : Location) : List Var :=
  (l.annotations ++ l.rankings).flatMap Expr.vars ++ l.edges.flatMap fun e => e.statement.vars

def Procedure.vars (f : Procedure) : List Var :=
  f.parameters ++ f.results ++ f.locations.flatMap Location.vars

def Program.vars (p : Program) : List Var := p.procedures.flatMap Procedure.vars

theorem Procedure.mem_vars_of_mem_parameters {f : Procedure} {v : Var} (hv : v ∈ f.parameters) :
    v ∈ f.vars :=
  List.mem_append_left _ (List.mem_append_left _ hv)

theorem Procedure.mem_vars_of_mem_results {f : Procedure} {v : Var} (hv : v ∈ f.results) :
    v ∈ f.vars :=
  List.mem_append_left _ (List.mem_append_right _ hv)

section Mem
variable {f : Procedure} {id : Nat} {l : Location} (hl : f.location id = .ok l) {v : Var}
include hl

theorem Procedure.mem_vars_of_location (hv : v ∈ l.vars) : v ∈ f.vars :=
  List.mem_append_right _ (List.mem_flatMap.2 ⟨l, List.mem_of_getElem? (location_eq_ok.1 hl), hv⟩)

theorem Procedure.mem_vars_of_mem_annotations {a : Expr} (ha : a ∈ l.annotations)
    (hv : v ∈ a.vars) : v ∈ f.vars :=
  mem_vars_of_location hl
    (List.mem_append_left _ (List.mem_flatMap.2 ⟨a, List.mem_append_left _ ha, hv⟩))

theorem Procedure.mem_vars_of_mem_rankings {a : Expr} (ha : a ∈ l.rankings)
    (hv : v ∈ a.vars) : v ∈ f.vars :=
  mem_vars_of_location hl
    (List.mem_append_left _ (List.mem_flatMap.2 ⟨a, List.mem_append_right _ ha, hv⟩))

theorem Procedure.mem_vars_of_edge {e : Edge} (he : e ∈ l.edges) (hv : v ∈ e.statement.vars) :
    v ∈ f.vars :=
  mem_vars_of_location hl (List.mem_append_right _ (List.mem_flatMap.2 ⟨e, he, hv⟩))

end Mem

theorem Procedure.mem_vars_of_edges {f : Procedure} {id : Nat} {es : List Edge}
    (hes : f.edges id = .ok es) {e : Edge} (he : e ∈ es) {v : Var} (hv : v ∈ e.statement.vars) :
    v ∈ f.vars := by
  obtain ⟨l, hl, rfl⟩ := edges_eq_ok.1 hes
  split at he
  · rw [List.mem_singleton.1 he] at hv
    cases hv
  · exact mem_vars_of_edge hl he hv

/-- A call has arguments of the sorts of its callee's parameters, and assigns variables of the sorts
of its results or none. -/
def Statement.CallFits (p : Program) : Statement → Prop
  | call lhs name args => ∀ g ∈ (p.procedure name).toOption,
      args.map Var.ty = g.parameters.map Var.ty ∧ (lhs = [] ∨ lhs.map Var.ty = g.results.map Var.ty)
  | _ => True

instance (p : Program) : (s : Statement) → Decidable (s.CallFits p)
  | .call lhs name args =>
    inferInstanceAs (Decidable (∀ g ∈ (p.procedure name).toOption,
      args.map Var.ty = g.parameters.map Var.ty ∧
      (lhs = [] ∨ lhs.map Var.ty = g.results.map Var.ty)))
  | .assign _ _ | .assignAt _ _ _ | .assume _ | .assert _ => isTrue trivial

/-- The procedure calls no other. -/
def Procedure.CallFree (f : Procedure) : Prop :=
  ∀ l ∈ f.locations, ∀ e ∈ l.edges, e.statement.isCall = false

instance (f : Procedure) : Decidable f.CallFree :=
  inferInstanceAs (Decidable (∀ l ∈ f.locations, ∀ e ∈ l.edges, e.statement.isCall = false))

theorem Procedure.CallFree.edges {f : Procedure} (h : f.CallFree) {id : Nat} {es : List Edge}
    (hes : f.edges id = .ok es) : ∀ e ∈ es, e.statement.isCall = false := by
  intro e he
  rw [Bool.eq_false_iff]
  intro hcall
  obtain ⟨l, hl, he⟩ := mem_edges_of_call hes he hcall
  exact absurd hcall (Bool.eq_false_iff.1 (h l (List.mem_of_getElem? (location_eq_ok.1 hl)) e he))

def Procedure.CallsFit (f : Procedure) (p : Program) : Prop :=
  ∀ l ∈ f.locations, ∀ e ∈ l.edges, e.statement.CallFits p

instance (f : Procedure) (p : Program) : Decidable (f.CallsFit p) :=
  inferInstanceAs (Decidable (∀ l ∈ f.locations, ∀ e ∈ l.edges, e.statement.CallFits p))

theorem Procedure.CallsFit.call {f : Procedure} {p : Program} (h : f.CallsFit p) {l : Location}
    (hl : l ∈ f.locations) {e : Edge} (he : e ∈ l.edges) {lhs args : List Var} {name : String}
    (hs : e.statement = .call lhs name args) {g : Procedure} (hg : p.procedure name = .ok g) :
    args.map Var.ty = g.parameters.map Var.ty ∧
    (lhs = [] ∨ lhs.map Var.ty = g.results.map Var.ty) := by
  have := h l hl e he
  rw [hs] at this
  exact this g (by rw [hg]; rfl)

/-! ## Statements -/

inductive Outcome where
  | done (σ : State)
  /-- An assertion does not hold. -/
  | failed

def Outcome.Meets (o : Outcome) (P : State → Prop) : Prop :=
  match o with
  | done σ => P σ
  | failed => False

theorem Outcome.Meets.imp {o : Outcome} {P Q : State → Prop} (h : o.Meets P)
    (hPQ : ∀ σ, P σ → Q σ) : o.Meets Q := by
  cases o with
  | done σ => exact hPQ σ h
  | failed => exact h

theorem Outcome.meets_congr {o : Outcome} {P Q : State → Prop} (h : ∀ σ, P σ ↔ Q σ) :
    o.Meets P ↔ o.Meets Q := by
  cases o with
  | done σ => exact h σ
  | failed => exact Iff.rfl

def Outcome.map (g : State → State) : Outcome → Outcome
  | done σ => .done (g σ)
  | failed => .failed

/-- What a statement does to a state. An assumption that does not hold lets nothing happen, and a
call is no single step. -/
inductive Statement.Runs (I : Interp) : Statement → State → Outcome → Prop
  | assign (v : Var) (e : Expr) (σ : State) :
      Runs I (.assign v e) σ (.done (σ.bind [v] [I.value σ e]))
  | assignAt (a : Var) (i e : Expr) (σ : State) : Runs I (.assignAt a i e) σ
      (.done (σ.bind [a] [(σ a.name).update (I.value σ i).toInt (I.value σ e) (σ a.name).length]))
  | assume {e : Expr} {σ : State} (h : I.Holds σ e) : Runs I (.assume e) σ (.done σ)
  | assert {e : Expr} {σ : State} (h : I.Holds σ e) : Runs I (.assert e) σ (.done σ)
  | fail {e : Expr} {σ : State} (h : ¬ I.Holds σ e) : Runs I (.assert e) σ .failed

/-! ## Paths -/

/-- The results that the exit conditions of a procedure allow, read with the values of the arguments
for the parameters. -/
def Procedure.Returns (g : Procedure) (I : Interp) (arguments : List Var) (σ : State)
    (ds : List Datum) : Prop :=
  Var.Typed g.results ds ∧ ∃ cs, g.exitConditions = .ok cs ∧
    ∀ c ∈ cs, I.Holds ((σ.bind g.parameters (σ.get arguments)).bind g.results ds) c

/-- The statements one after the other. A call picks results that the callee's contract allows. -/
inductive Program.Executes (p : Program) (I : Interp) : List Statement → State → Outcome → Prop
  | nil (σ : State) : Executes p I [] σ (.done σ)
  | step {s : Statement} {ss : List Statement} {σ τ : State} {o : Outcome}
      (hs : s.Runs I σ (.done τ)) (hss : Executes p I ss τ o) : Executes p I (s :: ss) σ o
  | fail {s : Statement} {ss : List Statement} {σ : State} (hs : s.Runs I σ .failed) :
      Executes p I (s :: ss) σ .failed
  | call {lhs arguments : List Var} {name : String} {g : Procedure} {ss : List Statement}
      {σ : State} {ds : List Datum} {o : Outcome} (hg : p.procedure name = .ok g)
      (hds : g.Returns I arguments σ ds) (hss : Executes p I ss (σ.bind lhs ds) o) :
      Executes p I (.call lhs name arguments :: ss) σ o

/-- The entry conditions of a procedure hold, read with the values of the arguments for the
parameters. -/
def Procedure.Accepts (g : Procedure) (I : Interp) (arguments : List Var) (σ : State) : Prop :=
  ∀ cs, g.entryConditions = .ok cs → ∀ c ∈ cs, I.Holds (σ.bind g.parameters (σ.get arguments)) c

/-- What has to hold on arrival at a location: the invariants of a loop head, the conditions of the
exit, and for every call out of the location the entry conditions of its callee. -/
def Location.Asks (l : Location) (p : Program) (I : Interp) (σ : State) : Prop :=
  (l.isLoopHead = true ∨ l.isExit = true → ∀ a ∈ l.annotations, I.Holds σ a) ∧
    ∀ e ∈ l.edges, ∀ lhs name arguments, e.statement = .call lhs name arguments →
    ∀ g, p.procedure name = .ok g →
      g.Accepts I arguments σ

/-! ## Programs -/

/-- A procedure that is being executed: where the execution is, and its state. -/
structure Frame where
  procedure : Procedure
  location : Nat
  state : State
  /-- Every variable has a value of its sort. -/
  fits : state.Fits procedure.vars

/-- The frame that is being executed, and below it those that wait for a call, each with the edge of
its call. -/
structure Stack where
  top : Frame
  waiting : List (Frame × Edge)

namespace Frame

/-- The edge may be taken next. The exit is left by no edge. -/
def Takes (F : Frame) (e : Edge) : Prop :=
  F.location ≠ F.procedure.exit ∧ ∃ es, F.procedure.edges F.location = .ok es ∧ e ∈ es

/-- The annotations of the location hold: conditions at the entry and the exit, invariants at a loop
head. -/
def Meets (F : Frame) (I : Interp) : Prop :=
  ∀ l, F.procedure.location F.location = .ok l → ∀ a ∈ l.annotations, I.Holds F.state a

theorem typed_results (F : Frame) :
    Var.Typed F.procedure.results (F.state.get F.procedure.results) :=
  State.Fits.typed_get (F.fits.mono fun _ hv => Procedure.mem_vars_of_mem_results hv)

end Frame

namespace Stack

/-- All frames, the one that is being executed first. -/
def frames (K : Stack) : List Frame := K.top :: K.waiting.map Prod.fst

/-- An assertion is executed that does not hold. -/
def Fails (K : Stack) (I : Interp) : Prop :=
  ∃ e, K.top.Takes e ∧ e.statement.Runs I K.top.state .failed

end Stack

namespace Program

inductive Step (p : Program) (I : Interp) : Stack → Stack → Prop
  | edge {F G : Frame} {W : List (Frame × Edge)} {e : Edge} (he : F.Takes e)
      (hs : e.statement.Runs I F.state (.done G.state)) (hp : G.procedure = F.procedure)
      (hl : G.location = e.target) : Step p I ⟨F, W⟩ ⟨G, W⟩
  | enter {F G : Frame} {W : List (Frame × Edge)} {e : Edge} {lhs arguments : List Var}
      {name : String} (he : F.Takes e) (hs : e.statement = .call lhs name arguments)
      (hp : p.procedure name = .ok G.procedure) (hl : G.location = G.procedure.entry)
      (hσ : ∀ x ∈ Var.names G.procedure.parameters, G.state x = F.state.bind G.procedure.parameters
        (F.state.get arguments) x) : Step p I ⟨F, W⟩ ⟨G, (F, e) :: W⟩
  | leave {F G H : Frame} {W : List (Frame × Edge)} {e : Edge} {lhs arguments : List Var}
      {name : String} (hexit : G.location = G.procedure.exit)
      (hs : e.statement = .call lhs name arguments)
      (hp : H.procedure = F.procedure) (hl : H.location = e.target)
      (hσ : H.state = F.state.bind lhs (G.state.get G.procedure.results)) :
      Step p I ⟨G, (F, e) :: W⟩ ⟨H, W⟩

def Reaches (p : Program) (I : Interp) : Stack → Stack → Prop := Relation.ReflTransGen (p.Step I)

end Program

/-! ## What stays -/

/-- A statement changes only the variables that it assigns. -/
theorem Statement.Runs.unchanged {I : Interp} {s : Statement} {σ τ : State}
    (h : s.Runs I σ (.done τ)) {x : String} (hx : x ∉ Var.names s.targets) : τ x = σ x := by
  cases h with
  | assign v e => exact NameMap.bind_of_not_mem hx
  | assignAt a i e => exact NameMap.bind_of_not_mem hx
  | assume | assert => rfl

namespace Program.Executes
variable {p : Program} {I : Interp}

theorem append {ss ts : List Statement} {σ τ : State} {o : Outcome}
    (h : p.Executes I ss σ (.done τ)) (ht : p.Executes I ts τ o) : p.Executes I (ss ++ ts) σ o := by
  generalize hdone : Outcome.done τ = o' at h
  induction h with
  | nil σ =>
    cases hdone
    exact ht
  | step hs hss ih => exact .step hs (ih hdone)
  | fail hs => cases hdone
  | call hg hds hss ih => exact .call hg hds (ih hdone)

theorem unchanged {ss : List Statement} {σ τ : State} (h : p.Executes I ss σ (.done τ)) {x : String}
    (hx : ∀ s ∈ ss, x ∉ Var.names s.targets) : τ x = σ x := by
  generalize hdone : Outcome.done τ = o at h
  induction h with
  | nil σ => cases hdone; rfl
  | step hs hss ih =>
    rw [List.forall_mem_cons] at hx
    rw [ih hx.2 hdone, hs.unchanged hx.1]
  | fail hs => cases hdone
  | call hg hds hss ih =>
    rw [List.forall_mem_cons] at hx
    rw [ih hx.2 hdone]
    exact NameMap.bind_of_not_mem hx.1

end Program.Executes

/-! ## Other values for other variables -/

section Elsewhere
variable {I : Interp} {vs : List Var}

theorem Interp.value_bind {σ : State} (ds : List Datum) {e : Expr}
    (h : ∀ v ∈ e.free, v.name ∉ Var.names vs) : I.value (σ.bind vs ds) e = I.value σ e :=
  I.value_congr fun v hv => NameMap.bind_of_not_mem (h v hv)

theorem Interp.values_bind {σ : State} (ds : List Datum) {es : List Expr}
    (h : ∀ e ∈ es, ∀ v ∈ e.free, v.name ∉ Var.names vs) :
    I.values (σ.bind vs ds) es = I.values σ es := by
  rw [Interp.values_eq_map, Interp.values_eq_map]
  exact List.map_congr_left fun e he => Interp.value_bind ds (h e he)

theorem Interp.holds_bind {σ : State} (ds : List Datum) {e : Expr}
    (h : ∀ v ∈ e.free, v.name ∉ Var.names vs) : I.Holds (σ.bind vs ds) e ↔ I.Holds σ e := by
  rw [Interp.Holds, Interp.Holds, Interp.value_bind ds h]

/-- A statement does the same whatever values there are for variables that it does not mention. -/
theorem Statement.Runs.bind {s : Statement} {σ : State} {o : Outcome} (hrun : s.Runs I σ o)
    (h : ∀ v ∈ s.free, v.name ∉ Var.names vs) (ds : List Datum) :
    s.Runs I (σ.bind vs ds) (o.map fun τ => τ.bind vs ds) := by
  have single : ∀ {v : Var}, v ∈ s.free → ∀ x ∈ Var.names [v], x ∉ Var.names vs := by
    intro v hv x hx
    rw [Var.names, List.map_singleton, List.mem_singleton] at hx
    rw [hx]
    exact h v hv
  cases hrun with
  | assign v e =>
    have := Statement.Runs.assign (I := I) v e (σ.bind vs ds)
    rwa [Interp.value_bind ds fun u hu => h u (List.mem_cons_of_mem _ hu),
      NameMap.bind_comm _ (single List.mem_cons_self)] at this
  | assignAt a i e =>
    have := Statement.Runs.assignAt (I := I) a i e (σ.bind vs ds)
    rwa [Interp.value_bind ds fun u hu => h u (List.mem_cons_of_mem _ (List.mem_append_left _ hu)),
      Interp.value_bind ds fun u hu => h u (List.mem_cons_of_mem _ (List.mem_append_right _ hu)),
      NameMap.bind_of_not_mem (h a List.mem_cons_self),
      NameMap.bind_comm _ (single List.mem_cons_self)] at this
  | assume he => exact .assume ((Interp.holds_bind ds h).2 he)
  | assert he => exact .assert ((Interp.holds_bind ds h).2 he)
  | fail he => exact .fail fun h' => he ((Interp.holds_bind ds h).1 h')

end Elsewhere

/-! ## Sorts are kept -/

theorem OneType.fits_bind {vs ws : List Var} (hvs : OneType vs) (hws : ∀ w ∈ ws, w ∈ vs)
    {σ : State} (hσ : σ.Fits vs) {ds : List Datum} (hds : Var.Typed ws ds) :
    State.Fits (σ.bind ws ds) vs := by
  refine NameMap.Fits.bind hds.forall₂ (fun v hv hname => ?_) fun v hv _ => hσ v hv
  obtain ⟨w, hw, hwv⟩ := mem_names.1 hname
  exact hvs w (hws w hw) v hv hwv ▸ (hvs.mono hws).binds hw

/-- A statement that assigns a value of its target's sort leads to a state where all variables have
values of their sorts. -/
theorem Statement.Runs.fits {I : Interp} {s : Statement} {σ τ : State} {vs : List Var}
    (h : s.Runs I σ (.done τ)) (hσ : σ.Fits vs) (hvs : OneType vs) (hs : ∀ v ∈ s.vars, v ∈ vs)
    (hty : ∀ v e, s = .assign v e → e.type? = some v.ty) : τ.Fits vs := by
  cases h with
  | assign v e =>
    have hvalue := I.value_ty (hσ.mono fun w hw =>
      hs w (List.mem_cons_of_mem _ (Expr.mem_vars_of_mem_free hw))) (hty v e rfl)
    exact hvs.fits_bind (by simpa using hs v List.mem_cons_self) hσ (by simp [Var.TypedBy, hvalue])
  | assignAt a i e =>
    have ha := hs a List.mem_cons_self
    exact hvs.fits_bind (by simpa using ha) hσ (by simp [Var.TypedBy, hσ a ha])
  | assume | assert => exact hσ

section Progress
variable {p : Program} {I : Interp} {F G : Frame} {e : Edge} (he : F.Takes e)
  (W : List (Frame × Edge))
include he

/-- An edge can be taken if its statement assigns a value of its target's sort. -/
theorem Program.exists_edge (hone : OneType F.procedure.vars)
    (hty : ∀ v a, e.statement = .assign v a → a.type? = some v.ty) {τ : State}
    (hs : e.statement.Runs I F.state (.done τ)) :
    ∃ G : Frame, G.state = τ ∧ p.Step I ⟨F, W⟩ ⟨G, W⟩ := by
  obtain ⟨es, hes, hmem⟩ := he.2
  have hfits := hs.fits F.fits hone (fun v hv => Procedure.mem_vars_of_edges hes hmem hv) hty
  exact ⟨⟨F.procedure, e.target, τ, hfits⟩, rfl, .edge he hs rfl rfl⟩

section Call
variable {lhs arguments : List Var} {name : String} (hs : e.statement = .call lhs name arguments)
include hs

/-- A call can be begun if the arguments have the sorts of the parameters. -/
theorem Program.exists_enter {g : Procedure} (hg : p.procedure name = .ok g) (hone : OneType g.vars)
    (hty : arguments.map Var.ty = g.parameters.map Var.ty) :
    ∃ G : Frame, G.procedure = g ∧ p.Step I ⟨F, W⟩ ⟨G, (F, e) :: W⟩ := by
  obtain ⟨es, hes, hmem⟩ := he.2
  have hparameters : ∀ v ∈ g.parameters, v ∈ g.vars :=
    fun v hv => Procedure.mem_vars_of_mem_parameters hv
  have harguments : F.state.Fits arguments :=
    F.fits.mono fun v hv => Procedure.mem_vars_of_edges hes hmem (by
    rw [hs]
    exact List.mem_append_right _ hv)
  have htyped : Var.Typed g.parameters (F.state.get arguments) := harguments.typed_get.trans hty
  -- the variables besides the parameters get any values of their sorts
  obtain ⟨τ, hτ, hagree⟩ :=
    State.exists_fits hone (F.state.bind g.parameters (F.state.get arguments))
  refine ⟨⟨g, g.entry, τ, hτ⟩, rfl, .enter he hs hg rfl fun x hx => ?_⟩
  obtain ⟨v, hv, rfl⟩ := mem_names.1 hx
  exact hagree v (hparameters v hv) (State.bind_ty htyped ((hone.mono hparameters).binds hv))

/-- A call can be ended if the results go to variables of their sorts. -/
theorem Program.exists_leave (hone : OneType F.procedure.vars)
    (hexit : G.location = G.procedure.exit)
    (hty : lhs = [] ∨ lhs.map Var.ty = G.procedure.results.map Var.ty) :
    ∃ H : Frame, H.procedure = F.procedure ∧ p.Step I ⟨G, (F, e) :: W⟩ ⟨H, W⟩ := by
  obtain ⟨es, hes, hmem⟩ := he.2
  have hlhs : ∀ v ∈ lhs, v ∈ F.procedure.vars :=
    fun v hv => Procedure.mem_vars_of_edges hes hmem (by
    rw [hs]
    exact List.mem_append_left _ hv)
  have hfits : State.Fits
      (F.state.bind lhs (G.state.get G.procedure.results)) F.procedure.vars := by
    rcases hty with rfl | hty
    · rw [NameMap.bind_nil]
      exact F.fits
    · exact hone.fits_bind hlhs F.fits (G.typed_results.trans hty.symm)
  exact ⟨⟨F.procedure, e.target, _, hfits⟩, rfl, .leave hexit hs rfl rfl rfl⟩

end Call

end Progress

end Cutpoint
