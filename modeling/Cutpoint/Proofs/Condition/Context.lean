import Cutpoint.Condition.Context
import Cutpoint.Proofs.Flow.Run
import Cutpoint.Proofs.Meaning.Subst
import Cutpoint.Proofs.Path.Segment

/-!
# The context of a basic path

* `Procedure.ContractIn`: the conditions of a callee mention its formal variables and otherwise
  variables of a given scope only;
* `Procedure.InScope`: so do the conditions of all callees of a procedure, whose own variables are
  in the scope;
* `PathContext.IsOf`: what the context of a path holds, and `PathContext.exists_of`: every basic
  path has one;
* `PathContext.demand_holds`: what is computed for the end of a path is true exactly if what the
  last location asks for holds.
-/

set_option autoImplicit false

namespace Cutpoint

/-! ## Contracts -/

/-- The formula, in which `bs` are formal, belongs to the scope `S`: its other free variables are
variables of `S`. -/
def Expr.ScopedIn (e : Expr) (bs S : List Var) : Prop :=
  e.Scoped ∧ ∀ v ∈ e.free, v ∈ bs ∨ (v ∈ S ∧ v.name ∉ Var.names bs)

theorem Expr.ScopedIn.binary {l r : Expr} {bs S : List Var} (op : BinOp) (hl : l.ScopedIn bs S)
    (hr : r.ScopedIn bs S) : (Expr.binary op l r).ScopedIn bs S :=
  ⟨⟨hl.1, hr.1⟩, fun v hv => ((Expr.mem_free_binary _ _ _).1 hv).elim (hl.2 v) (hr.2 v)⟩

theorem Expr.ScopedIn.foldl {es : List Expr} {bs S : List Var} (op : BinOp)
    (h : ∀ e ∈ es, e.ScopedIn bs S) {a : Expr} (ha : a.ScopedIn bs S) :
    (es.foldl (Expr.binary op) a).ScopedIn bs S := by
  induction es generalizing a with
  | nil => exact ha
  | cons e es ih =>
    rw [List.forall_mem_cons] at h
    exact ih h.2 (ha.binary op h.1)

theorem Expr.ScopedIn.conj {es : List Expr} {bs S : List Var} (h : ∀ e ∈ es, e.ScopedIn bs S) :
    (Expr.conj es).ScopedIn bs S := by
  cases es with
  | nil => exact ⟨trivial, fun v hv => absurd hv (Expr.mem_free_bool true)⟩
  | cons a es => exact .foldl .and (List.forall_mem_cons.1 h).2 (List.forall_mem_cons.1 h).1

theorem Expr.ScopedIn.disj {es : List Expr} {bs S : List Var} (h : ∀ e ∈ es, e.ScopedIn bs S) :
    (Expr.disj es).ScopedIn bs S := by
  cases es with
  | nil => exact ⟨trivial, fun v hv => absurd hv (Expr.mem_free_bool false)⟩
  | cons a es => exact .foldl .or (List.forall_mem_cons.1 h).2 (List.forall_mem_cons.1 h).1

/-- A variable of a formula in scope that is named like a formal variable is that variable. -/
theorem Expr.ScopedIn.eq_of_name {e : Expr} {bs S : List Var} (h : e.ScopedIn bs S)
    (hone : OneType bs) {v : Var} (hv : v ∈ e.free) {w : Var} (hw : w ∈ bs)
    (hname : w.name = v.name) : w = v := by
  rcases h.2 v hv with hb | ⟨-, hn⟩
  · exact hone w hw v hb hname
  · exact absurd (hname ▸ name_mem_names hw) hn

theorem Expr.scopedIn_nil {e : Expr} {S : List Var} :
    e.ScopedIn [] S ↔ e.Scoped ∧ ∀ v ∈ e.free, v ∈ S := by
  simp [Expr.ScopedIn, Var.names]

theorem Expr.ScopedIn.mono {e : Expr} {bs S T : List Var} (h : e.ScopedIn bs S)
    (hST : ∀ v ∈ S, v ∈ T) : e.ScopedIn bs T :=
  ⟨h.1, fun v hv => (h.2 v hv).imp_right (And.imp_left (hST v))⟩

/-- Where each name has one sort, a variable is formal if its name is. -/
theorem OneType.scopedIn_formal {S : List Var} (hS : OneType S) {bs : List Var}
    (hbs : ∀ b ∈ bs, b ∈ S) {e : Expr} (h : ∀ v ∈ e.vars, v ∈ S) : e.ScopedIn bs S := by
  refine ⟨OneType.scoped (hS.mono h), fun v hv => ?_⟩
  have hvS := h v (Expr.mem_vars_of_mem_free hv)
  by_cases hn : v.name ∈ Var.names bs
  · obtain ⟨b, hb, hname⟩ := mem_names.1 hn
    exact Or.inl (hS b (hbs b hb) v hvS hname ▸ hb)
  · exact Or.inr ⟨hvS, hn⟩

theorem OneType.scopedIn {S : List Var} (hS : OneType S) {e : Expr} (h : ∀ v ∈ e.vars, v ∈ S) :
    e.ScopedIn [] S :=
  hS.scopedIn_formal (by simp) h

/-- The conditions of a procedure, as they are seen from the scope `S` of a caller. -/
structure Procedure.ContractIn (g : Procedure) (S : List Var) : Prop where
  oneType : OneType (g.parameters ++ g.results)
  entry : ∀ cs, g.entryConditions = .ok cs → ∀ e ∈ cs, e.ScopedIn g.parameters S
  exit : ∀ cs, g.exitConditions = .ok cs → ∀ e ∈ cs, e.ScopedIn (g.parameters ++ g.results) S

theorem Procedure.ContractIn.mono {g : Procedure} {S T : List Var} (h : g.ContractIn S)
    (hST : ∀ v ∈ S, v ∈ T) : g.ContractIn T :=
  ⟨h.oneType, fun cs hcs e he => (h.entry cs hcs e he).mono hST,
    fun cs hcs e he => (h.exit cs hcs e he).mono hST⟩

namespace Procedure

/-- Arguments are put for parameters. -/
theorem binding_renames {g : Procedure} {args : List Var} {S : List Var}
    (hone : OneType g.parameters) (hlen : args.length = g.parameters.length)
    {e : Expr} (he : e.ScopedIn g.parameters S) :
    ∀ v ∈ e.free, (g.binding args).Renames [] [] g.parameters args v := by
  intro v hv
  rw [Subst.Renames, binding, Subst.find?_ofPairs (by simpa using hlen) fun r hr =>
    he.eq_of_name hone hv hr, Var.lookup_nil, Option.none_or]

/-- A formula with arguments for parameters belongs to the caller's scope. -/
theorem scoped_binding {g : Procedure} {args : List Var} {S : List Var}
    (hone : OneType g.parameters) (hlen : args.length = g.parameters.length)
    (hargs : ∀ v ∈ args, v ∈ S) {e : Expr} (he : e.ScopedIn g.parameters S) :
    (e.subst (g.binding args)).ScopedIn [] S := by
  have hren := binding_renames hone hlen he
  refine ⟨he.1.subst_renames hren (Nat.le_refl _) (Nat.le_of_eq hlen.symm),
    fun v hv => Or.inr ⟨?_, List.not_mem_nil⟩⟩
  rcases Expr.mem_free_subst_renames he.1 hren (Nat.le_refl _) (Nat.le_of_eq hlen.symm) hv with
    h | h | ⟨h, -, hn⟩
  · exact absurd h List.not_mem_nil
  · exact hargs v h
  · rcases he.2 v h with h | h
    · exact absurd (name_mem_names h) hn
    · exact h.1

end Procedure

/-- A formula with arguments for parameters says what it says where the parameters have the values
of the arguments. -/
theorem Interp.holds_binding {I : Interp} {g : Procedure} {args : List Var} {S : List Var}
    (hone : OneType g.parameters) (hlen : args.length = g.parameters.length)
    {e : Expr} (he : e.ScopedIn g.parameters S) (σ : State) :
    I.Holds σ (e.subst (g.binding args)) ↔ I.Holds (σ.bind g.parameters (σ.get args)) e := by
  rw [Interp.holds_subst_renames he.1 (Procedure.binding_renames hone hlen he), NameMap.bind_nil]

/-- The variables of a procedure are in the scope `S`, where each name has one sort, and so are the
variables of its callees' conditions that are not formal. Calls assign variables of the sorts of the
results. -/
structure Procedure.InScope (f : Procedure) (p : Program) (S : List Var) : Prop where
  oneType : OneType S
  vars : ∀ v ∈ f.vars, v ∈ S
  calls : ∀ l ∈ f.locations, ∀ e ∈ l.edges, ∀ lhs name args, e.statement = .call lhs name args →
    ∀ g, p.procedure name = .ok g → g.ContractIn S ∧
    (lhs = [] ∨ lhs.map Var.ty = g.results.map Var.ty)

section Program
variable {p : Program} (hone : OneType p.vars)
include hone

/-- Where each name has one sort in the whole program, the variables of the program are a scope for
all contracts. -/
theorem Procedure.contractIn_vars {g : Procedure} (hg : g ∈ p.procedures) :
    g.ContractIn p.vars := by
  have hsub : ∀ v ∈ g.vars, v ∈ p.vars := fun v hv => List.mem_flatMap.2 ⟨g, hg, hv⟩
  have hformal : ∀ v ∈ g.parameters ++ g.results, v ∈ p.vars :=
    fun v hv => hsub v (List.mem_append_left _ hv)
  refine ⟨hone.mono hformal, fun cs hcs e he => ?_, fun cs hcs e he => ?_⟩
  · obtain ⟨l, hl, h⟩ := bind_eq_ok.1 hcs
    cases h
    exact hone.scopedIn_formal (fun v hv => hformal v (List.mem_append_left _ hv)) fun v hv =>
      hsub v (mem_vars_of_mem_annotations hl he hv)
  · obtain ⟨l, hl, h⟩ := bind_eq_ok.1 hcs
    cases h
    exact hone.scopedIn_formal hformal fun v hv => hsub v (mem_vars_of_mem_annotations hl he hv)

theorem Procedure.inScope_vars {f : Procedure} (hf : f ∈ p.procedures) (hcalls : f.CallsFit p) :
    f.InScope p p.vars :=
  ⟨hone, fun _ hv => List.mem_flatMap.2 ⟨f, hf, hv⟩, fun _ hl _ he _ _ _ hs _ hg =>
    ⟨contractIn_vars hone (Program.mem_of_procedure hg), (hcalls.call hl he hs hg).2⟩⟩

end Program

/-! ## Contexts -/

theorem mem_of_mapM_ok {α β : Type} {g : α → Except Fault β} {xs : List α} {ys : List β}
    (h : xs.mapM g = .ok ys) {x : α} (hx : x ∈ xs) {y : β} (hy : g x = .ok y) : y ∈ ys := by
  induction xs generalizing ys with
  | nil => cases hx
  | cons z xs ih =>
    rw [List.mapM_cons, bind_eq_ok] at h
    obtain ⟨w, hw, h⟩ := h
    rw [bind_eq_ok] at h
    obtain ⟨ws, hws, h⟩ := h
    cases h
    rcases List.mem_cons.1 hx with rfl | hx
    · rw [hy] at hw
      cases hw
      exact List.mem_cons_self
    · exact List.mem_cons_of_mem _ (ih hws hx)

namespace BasicPath

/-- Every edge on a path leaves some location. -/
theorem mem_edges_of_edgesFrom {f : Procedure} {id : Nat} {steps : List (Nat × Nat)}
    {es : List Edge} (h : edgesFrom f id steps = .ok es) :
    ∀ e ∈ es, ∃ j js, f.edges j = .ok js ∧ e ∈ js := by
  induction steps generalizing id es with
  | nil =>
    cases h
    simp
  | cons step steps ih =>
    obtain ⟨index, target⟩ := step
    rw [edgesFrom, bind_eq_ok] at h
    obtain ⟨js, hjs, h⟩ := h
    split at h
    · cases h
    · next e he =>
      rw [bind_eq_ok] at h
      obtain ⟨rest, hrest, h⟩ := h
      cases h
      exact List.forall_mem_cons.2 ⟨⟨id, js, hjs, List.mem_of_getElem? he⟩, ih hrest⟩

theorem edgesFrom_cons {f : Procedure} {id index : Nat} {es rest : List Edge} {e : Edge}
    {steps : List (Nat × Nat)} (hes : f.edges id = .ok es) (he : es[index]? = some e)
    (hrest : edgesFrom f e.target steps = .ok rest) :
    edgesFrom f id ((index, e.target) :: steps) = .ok (e :: rest) := by
  rw [edgesFrom, bind_eq_ok]
  refine ⟨es, hes, ?_⟩
  rw [he]
  exact bind_eq_ok.2 ⟨rest, hrest, rfl⟩

end BasicPath

namespace Procedure

/-- No call leaves a location that is no cut point. -/
theorem isCall_of_not_isCut {f : Procedure} {id : Nat} {es : List Edge} (hcut : ¬ f.IsCut id)
    (hes : f.edges id = .ok es) : ∀ e ∈ es, e.statement.isCall = false := by
  intro e he
  rw [Bool.eq_false_iff]
  intro hcall
  obtain ⟨l, hl, he⟩ := mem_edges_of_call hes he hcall
  exact hcut (Or.inr ⟨l, hl, Or.inl (List.any_eq_true.2 ⟨e, he, hcall⟩)⟩)

/-- On the way to the first cut point there is no call. -/
theorem Completes.edgesFrom {f : Procedure} {id : Nat}
    {steps : List (Nat × Nat)} (h : f.Completes id steps) :
    ∃ es, BasicPath.edgesFrom f id steps = .ok es ∧ ∀ e ∈ es, e.statement.isCall = false := by
  induction h with
  | stop hcut => exact ⟨[], rfl, by simp⟩
  | go hcut hes he hsteps ih =>
    obtain ⟨rest, hrest, hplain⟩ := ih
    exact ⟨_, BasicPath.edgesFrom_cons hes he hrest,
      List.forall_mem_cons.2 ⟨isCall_of_not_isCut hcut hes _ (List.mem_of_getElem? he), hplain⟩⟩

/-- Only the first statement of a basic path may be a call. -/
theorem IsBasic.edges {f : Procedure} {path : BasicPath} (h : f.IsBasic path) :
    ∃ es, path.edges f = .ok es ∧ ∀ e ∈ es.tail, e.statement.isCall = false := by
  rcases h with ⟨rfl, -⟩ | ⟨⟨hes, he, hsteps⟩, -⟩
  · exact ⟨[], rfl, by simp⟩
  · obtain ⟨rest, hrest, hplain⟩ := hsteps.edgesFrom
    exact ⟨_, BasicPath.edgesFrom_cons hes he hrest, hplain⟩

theorem Completes.location {f : Procedure} {p : Program} (hf : f.WellFormed p) {id : Nat}
    {steps : List (Nat × Nat)} (h : f.Completes id steps) :
    ∀ step ∈ steps, ∃ l, f.location step.2 = .ok l := by
  induction h with
  | stop hcut => simp
  | go hcut hes he hsteps ih =>
    exact List.forall_mem_cons.2 ⟨hf.target hes (List.mem_of_getElem? he), ih⟩

/-- All locations on a basic path are there. -/
theorem IsBasic.location {f : Procedure} {p : Program} (hf : f.WellFormed p) {path : BasicPath}
    (h : f.IsBasic path) : ∀ id ∈ path.locations, ∃ l, f.location id = .ok l := by
  rw [BasicPath.locations, List.forall_mem_cons]
  rcases h with ⟨rfl, -⟩ | ⟨⟨hes, he, hsteps⟩, -⟩
  · obtain ⟨l, hl, -⟩ := hf.entry
    exact ⟨⟨l, hl⟩, by simp⟩
  · obtain ⟨l, hl, -⟩ := edges_eq_ok.1 hes
    refine ⟨⟨l, hl⟩, fun id hid => ?_⟩
    rw [List.map_cons, List.mem_cons] at hid
    rcases hid with rfl | hid
    · exact hf.target hes (List.mem_of_getElem? he)
    · obtain ⟨step, hstep, rfl⟩ := List.mem_map.1 hid
      exact hsteps.location hf step hstep

end Procedure

theorem BasicPath.finish_mem_locations (path : BasicPath) : path.finish ∈ path.locations := by
  rw [finish, locations]
  cases h : path.steps.getLast? with
  | none => exact List.mem_cons_self
  | some step => exact List.mem_cons_of_mem _ (List.mem_map_of_mem (List.mem_of_getLast? h))

namespace PathContext

/-- What the context of a path holds. -/
structure IsOf (c : PathContext) (p : Program) (f : Procedure) (path : BasicPath) : Prop where
  program : c.program = p
  procedure : c.procedure = f
  edges : ∃ es, path.edges f = .ok es ∧ c.statements = es.map Edge.statement
  first : f.location path.start = .ok c.first
  last : f.location path.finish = .ok c.last
  names_statements : ∀ s ∈ c.statements, ∀ x ∈ s.names, x ∈ c.names
  names_first : ∀ x ∈ c.first.names, x ∈ c.names
  names_last : ∀ x ∈ c.last.names, x ∈ c.names

/-- How a context is made up. -/
theorem of_eq_ok {p : Program} {f : Procedure} {path : BasicPath} {c : PathContext}
    (h : PathContext.of p f path = .ok c) :
    ∃ es ls, path.edges f = .ok es ∧ path.locations.mapM f.location = .ok ls ∧
      f.location path.start = .ok c.first ∧
      f.location path.finish = .ok c.last ∧ c = ⟨p, f, path, es.map Edge.statement, c.first, c.last,
        (es.map Edge.statement).flatMap Statement.names ++ ls.flatMap Location.names⟩ := by
  rw [PathContext.of, bind_eq_ok] at h
  obtain ⟨es, hes, h⟩ := h
  rw [bind_eq_ok] at h
  obtain ⟨ls, hls, h⟩ := h
  rw [bind_eq_ok] at h
  obtain ⟨first, hfirst, h⟩ := h
  rw [bind_eq_ok] at h
  obtain ⟨last, hlast, h⟩ := h
  cases h
  exact ⟨es, ls, hes, hls, hfirst, hlast, rfl⟩

theorem path_of {p : Program} {f : Procedure} {path : BasicPath} {c : PathContext}
    (h : PathContext.of p f path = .ok c) : c.path = path := by
  obtain ⟨es, ls, -, -, -, -, hc⟩ := of_eq_ok h
  rw [hc]

/-- The names of all locations on a path are among its names. -/
theorem names_locations {p : Program} {f : Procedure} {path : BasicPath}
    {c : PathContext} (h : PathContext.of p f path = .ok c) :
    ∀ id ∈ path.locations, ∀ l, f.location id = .ok l → ∀ x ∈ l.names, x ∈ c.names := by
  intro id hid l hl x hx
  obtain ⟨es, ls, -, hls, -, -, hc⟩ := of_eq_ok h
  rw [hc]
  exact List.mem_append_right _ (List.mem_flatMap.2 ⟨l, mem_of_mapM_ok hls hid hl, hx⟩)

theorem isOf_of {p : Program} {f : Procedure} {path : BasicPath} {c : PathContext}
    (h : PathContext.of p f path = .ok c) : c.IsOf p f path := by
  have hlocations := names_locations h
  obtain ⟨es, ls, hes, hls, hfirst, hlast, hc⟩ := of_eq_ok h
  refine ⟨by rw [hc], by rw [hc], ⟨es, hes, by rw [hc]⟩, hfirst, hlast, fun s hs x hx => ?_, ?_, ?_⟩
  · rw [hc] at hs ⊢
    exact List.mem_append_left _ (List.mem_flatMap.2 ⟨s, hs, hx⟩)
  · exact hlocations _ List.mem_cons_self _ hfirst
  · exact hlocations _ path.finish_mem_locations _ hlast

theorem IsOf.statements {c : PathContext} {p : Program} {f : Procedure} {path : BasicPath}
    (hc : c.IsOf p f path) {es : List Edge} (hes : path.edges f = .ok es) :
    c.statements = es.map Edge.statement := by
  obtain ⟨es', hes', hstatements⟩ := hc.edges
  rw [hes] at hes'
  cases hes'
  exact hstatements

/-- Every statement of a path is on an edge. -/
theorem IsOf.edge_of_statement {c : PathContext} {p : Program} {f : Procedure} {path : BasicPath}
    (hc : c.IsOf p f path) {s : Statement} (hs : s ∈ c.statements) :
    ∃ id js e, f.edges id = .ok js ∧ e ∈ js ∧ e.statement = s := by
  obtain ⟨es, hes, hstatements⟩ := hc.edges
  rw [hstatements] at hs
  obtain ⟨e, he, hs⟩ := List.mem_map.1 hs
  obtain ⟨id, js, hjs, he⟩ := BasicPath.mem_edges_of_edgesFrom hes e he
  exact ⟨id, js, e, hjs, he, hs⟩

theorem IsOf.mem_vars_of_statement {c : PathContext} {p : Program} {f : Procedure}
    {path : BasicPath} (hc : c.IsOf p f path) {s : Statement} (hs : s ∈ c.statements) {v : Var}
    (hv : v ∈ s.vars) : v ∈ f.vars := by
  obtain ⟨id, js, e, hjs, he, rfl⟩ := hc.edge_of_statement hs
  exact Procedure.mem_vars_of_edges hjs he hv

/-- Every basic path has a context. -/
theorem exists_of {p : Program} {f : Procedure} (hf : f.WellFormed p) {path : BasicPath}
    (h : f.IsBasic path) : ∃ c, PathContext.of p f path = .ok c := by
  obtain ⟨es, hes, -⟩ := h.edges
  obtain ⟨ls, hls⟩ := exists_mapM_ok (h.location hf)
  obtain ⟨first, hfirst⟩ := h.location hf path.start List.mem_cons_self
  obtain ⟨last, hlast⟩ := h.location hf path.finish path.finish_mem_locations
  exact ⟨_, bind_eq_ok.2 ⟨es, hes,
    bind_eq_ok.2 ⟨ls, hls, bind_eq_ok.2 ⟨first, hfirst, bind_eq_ok.2 ⟨last, hlast, rfl⟩⟩⟩⟩⟩

/-! ## Calls -/

theorem callee_eq_ok {c : PathContext} {lhs args : List Var} {name : String} {g : Procedure} :
    c.callee lhs name args = .ok g ↔ c.program.procedure name = .ok g ∧
    c.procedure.checkCall g lhs args = .ok () := by
  rw [callee, bind_eq_ok]
  constructor
  · rintro ⟨h, hh, hg⟩
    obtain ⟨hcheck, hg⟩ := seq_eq_ok.1 hg
    cases hg
    exact ⟨hh, hcheck⟩
  · rintro ⟨hg, hcheck⟩
    exact ⟨g, hg, seq_eq_ok.2 ⟨hcheck, rfl⟩⟩

/-- One of the edges calls the procedure `g` on the arguments. -/
def Calls (c : PathContext) (es : List Edge) (g : Procedure) (args : List Var) : Prop :=
  ∃ e ∈ es, ∃ lhs name, e.statement = .call lhs name args ∧ c.callee lhs name args = .ok g

theorem calls_cons_plain {c : PathContext} {e : Edge} {es : List Edge} {g : Procedure}
    {args : List Var} (h : e.statement.isCall = false) :
    c.Calls (e :: es) g args ↔ c.Calls es g args := by
  rw [Calls, List.exists_mem_cons_iff]
  refine or_iff_right ?_
  rintro ⟨lhs, name, hs, -⟩
  rw [hs] at h
  cases h

theorem calls_cons_call {c : PathContext} {e : Edge} {es : List Edge} {g h : Procedure}
    {lhs args as : List Var} {name : String} (hs : e.statement = .call lhs name args)
    (hg : c.callee lhs name args = .ok g) :
    c.Calls (e :: es) h as ↔ (h = g ∧ as = args) ∨ c.Calls es h as := by
  rw [Calls, List.exists_mem_cons_iff]
  refine or_congr_left ?_
  constructor
  · rintro ⟨lhs', name', hs', hh⟩
    rw [hs] at hs'
    cases hs'
    rw [hg] at hh
    cases hh
    exact ⟨rfl, rfl⟩
  · rintro ⟨rfl, rfl⟩
    exact ⟨lhs, name, hs, hg⟩

/-- A call with `P` is the first one or among the others. -/
theorem exists_calls_cons {c : PathContext} {e : Edge} {es : List Edge} {g : Procedure}
    {lhs args : List Var} {name : String} (hs : e.statement = .call lhs name args)
    (hg : c.callee lhs name args = .ok g) {α : Type} {get : Procedure → Except Fault α} {a : α}
    (ha : get g = .ok a) {P : Procedure → List Var → α → Prop} :
    (∃ h as b, c.Calls (e :: es) h as ∧ get h = .ok b ∧ P h as b) ↔
      P g args a ∨ ∃ h as b, c.Calls es h as ∧ get h = .ok b ∧ P h as b := by
  simp only [calls_cons_call hs hg]
  constructor
  · rintro ⟨h, as, b, ⟨rfl, rfl⟩ | hcall, hb, hP⟩
    · rw [ha] at hb
      cases hb
      exact Or.inl hP
    · exact Or.inr ⟨h, as, b, hcall, hb, hP⟩
  · rintro (hP | ⟨h, as, b, hcall, hb, hP⟩)
    · exact ⟨g, args, a, Or.inl ⟨rfl, rfl⟩, ha, hP⟩
    · exact ⟨h, as, b, Or.inr hcall, hb, hP⟩

/-- What calls ask for: the entry conditions and the ranking functions of every callee, with
arguments for parameters. -/
theorem exists_callDemands {c : PathContext} {es : List Edge}
    (h : ∀ e ∈ es, ∀ lhs name args, e.statement = .call lhs name args →
      ∃ g, c.callee lhs name args = .ok g ∧ g.WellFormed c.program) :
    ∃ cs rs, c.callDemands es = .ok (cs, rs) ∧
      (∀ x, x ∈ cs ↔ ∃ g args conds, c.Calls es g args ∧ g.entryConditions = .ok conds ∧
        x ∈ conds.map (Expr.subst (g.binding args))) ∧
      ∀ R, R ∈ rs ↔ ∃ g args ranks, c.Calls es g args ∧ g.entryRankings = .ok ranks ∧
        R = ranks.map (Expr.subst (g.binding args)) := by
  induction es with
  | nil => exact ⟨[], [], rfl, by simp [Calls], by simp [Calls]⟩
  | cons e es ih =>
    rw [List.forall_mem_cons] at h
    obtain ⟨cs, rs, hrest, hcs, hrs⟩ := ih h.2
    cases hs : e.statement with
    | call lhs name args =>
      obtain ⟨g, hg, hwf⟩ := h.1 lhs name args hs
      obtain ⟨conds, hconds⟩ := hwf.exists_entryConditions
      obtain ⟨ranks, hranks⟩ := hwf.exists_entryRankings
      refine ⟨conds.map (Expr.subst (g.binding args)) ++ cs,
        ranks.map (Expr.subst (g.binding args)) :: rs, ?_, fun x => ?_,
        fun R => ?_⟩
      · rw [callDemands, hs]
        exact bind_eq_ok.2 ⟨g, hg,
          bind_eq_ok.2 ⟨conds, hconds, bind_eq_ok.2 ⟨ranks, hranks, bind_eq_ok.2 ⟨_, hrest, rfl⟩⟩⟩⟩
      · rw [List.mem_append, hcs, exists_calls_cons hs hg hconds]
      · rw [List.mem_cons, hrs, exists_calls_cons hs hg hranks]
    | assign | assignAt | assume | assert =>
      have hplain : e.statement.isCall = false := by rw [hs]; rfl
      refine ⟨cs, rs, by rw [callDemands, hs]; exact hrest, fun x => ?_, fun R => ?_⟩
      · simp only [calls_cons_plain hplain, hcs]
      · simp only [calls_cons_plain hplain, hrs]

/-- The statements of a path are in the scope `S`. Only the first may be a call, and its callee's
conditions are in the scope too. -/
structure Within (c : PathContext) (S : List Var) : Prop where
  oneType : OneType S
  statements : ∀ s ∈ c.statements, s.Scoped ∧ ∀ v ∈ s.free, v ∈ S
  tail : ∀ s ∈ c.statements.tail, s.isCall = false
  calls : ∀ lhs name args, Statement.call lhs name args ∈ c.statements →
    ∃ g, c.callee lhs name args = .ok g ∧ (∃ cs, g.exitConditions = .ok cs) ∧ g.ContractIn S ∧
    (lhs = [] ∨ lhs.map Var.ty = g.results.map Var.ty)

theorem Within.mono {c : PathContext} {S T : List Var} (h : c.Within S) (hT : OneType T)
    (hST : ∀ v ∈ S, v ∈ T) : c.Within T := by
  refine ⟨hT, fun s hs => (h.statements s hs).imp_right fun hv v hs => hST v (hv v hs), h.tail,
    fun lhs name args hs => ?_⟩
  obtain ⟨g, hg, hcs, hcontract, hty⟩ := h.calls lhs name args hs
  exact ⟨g, hg, hcs, hcontract.mono hST, hty⟩

/-! ## The end of a path -/

section Demand
variable {c : PathContext} {p : Program} {f : Procedure} {path : BasicPath} {S : List Var}
  (hc : c.IsOf p f path) (hp : ∀ g ∈ p.procedures, g.WellFormed p) (hf : f.WellFormed p)
include hc hp hf

theorem within (hpath : f.IsBasic path) (hscope : f.InScope p S) : c.Within S := by
  refine ⟨hscope.oneType, fun s hs => ?_, fun s hs => ?_, fun lhs name args hs => ?_⟩
  · have hvars : ∀ v ∈ s.vars, v ∈ S := fun v hv => hscope.vars v (hc.mem_vars_of_statement hs hv)
    exact ⟨OneType.scoped_statement (hscope.oneType.mono hvars),
      fun v hv => hvars v (Statement.mem_vars_of_mem_free hv)⟩
  · obtain ⟨es, hes, hplain⟩ := hpath.edges
    rw [hc.statements hes, ← List.map_tail] at hs
    obtain ⟨e, he, rfl⟩ := List.mem_map.1 hs
    exact hplain e he
  · obtain ⟨id, js, e, hjs, he, hs⟩ := hc.edge_of_statement hs
    obtain ⟨l, hl, he⟩ := Procedure.mem_edges_of_call hjs he (by rw [hs]; rfl)
    obtain ⟨g, hg, hcheck⟩ := hf.call hl he hs
    obtain ⟨hcontract, hty⟩ := hscope.calls l
      (List.mem_of_getElem? (Procedure.location_eq_ok.1 hl)) e he lhs name args hs g hg
    refine ⟨g, callee_eq_ok.2 ?_, (hp g (Program.mem_of_procedure hg)).exists_exitConditions,
      hcontract, hty⟩
    rw [hc.program, hc.procedure]
    exact ⟨hg, hcheck⟩

theorem exists_callee_last :
    ∀ e ∈ c.last.edges, ∀ lhs name args, e.statement = .call lhs name args →
    ∃ g, c.callee lhs name args = .ok g ∧ g.WellFormed c.program := by
  intro e he lhs name args hs
  obtain ⟨g, hg, hcheck⟩ := hf.call hc.last he hs
  refine ⟨g, callee_eq_ok.2 ?_, ?_⟩
  · rw [hc.program, hc.procedure]
    exact ⟨hg, hcheck⟩
  · rw [hc.program]
    exact hp g (Program.mem_of_procedure hg)

/-- The calls out of the last location are to the procedures that they name. -/
theorem calls_last_iff {g : Procedure} {args : List Var} :
    c.Calls c.last.edges g args ↔
      ∃ e ∈ c.last.edges, ∃ lhs name,
        e.statement = .call lhs name args ∧ p.procedure name = .ok g := by
  constructor
  · rintro ⟨e, he, lhs, name, hs, hg⟩
    rw [callee_eq_ok, hc.program] at hg
    exact ⟨e, he, lhs, name, hs, hg.1⟩
  · rintro ⟨e, he, lhs, name, hs, hg⟩
    obtain ⟨g', hg', -⟩ := exists_callee_last hc hp hf e he lhs name args hs
    have hprocedure := (callee_eq_ok.1 hg').1
    rw [hc.program, hg] at hprocedure
    cases hprocedure
    exact ⟨e, he, lhs, name, hs, hg'⟩

omit hp hf in
theorem Calls.inScope (hscope : f.InScope p S) {g : Procedure}
    {args : List Var} (h : c.Calls c.last.edges g args) :
    g.ContractIn S ∧ args.length = g.parameters.length ∧ ∀ v ∈ args, v ∈ S := by
  obtain ⟨e, he, lhs, name, hs, hg⟩ := h
  rw [callee_eq_ok, hc.program, hc.procedure] at hg
  have hl := List.mem_of_getElem? (Procedure.location_eq_ok.1 hc.last)
  refine ⟨(hscope.calls _ hl e he lhs name args hs g hg.1).1, (Procedure.checkCall_eq_ok.1 hg.2).1,
    fun v hv => ?_⟩
  refine hscope.vars v (Procedure.mem_vars_of_edge hc.last he ?_)
  rw [hs]
  exact List.mem_append_right _ hv

/-- What is computed for the calls out of the last location says that the callees accept their
arguments. -/
theorem holds_callConditions (hscope : f.InScope p S) {cs : List Expr}
    (hcs : ∀ x, x ∈ cs ↔ ∃ g args conds, c.Calls c.last.edges g args ∧
      g.entryConditions = .ok conds ∧ x ∈ conds.map (Expr.subst (g.binding args)))
    (I : Interp) (σ : State) :
    (∀ x ∈ cs, I.Holds σ x) ↔
      ∀ e ∈ c.last.edges, ∀ lhs name args, e.statement = .call lhs name args →
        ∀ g, p.procedure name = .ok g → g.Accepts I args σ := by
  -- a condition with arguments for parameters, against the condition where the parameters have
  -- their values
  have hbinding : ∀ {g : Procedure} {args : List Var}, c.Calls c.last.edges g args →
      ∀ conds, g.entryConditions = .ok conds →
      ∀ a ∈ conds, (I.Holds σ (a.subst (g.binding args)) ↔
      I.Holds (σ.bind g.parameters (σ.get args)) a) := by
    intro g args hg conds hconds a ha
    obtain ⟨hcontract, hlen, -⟩ := hg.inScope hc hscope
    exact Interp.holds_binding (hcontract.oneType.mono fun v hv => List.mem_append_left _ hv) hlen
      (hcontract.entry conds hconds a ha) σ
  constructor
  · intro h e he lhs name args hs g hg conds hconds a ha
    have hcalls : c.Calls c.last.edges g args :=
      (calls_last_iff hc hp hf).2 ⟨e, he, lhs, name, hs, hg⟩
    exact (hbinding hcalls conds hconds a ha).1
      (h _ ((hcs _).2 ⟨g, args, conds, hcalls, hconds, List.mem_map_of_mem ha⟩))
  · intro h x hx
    obtain ⟨g, args, conds, hcalls, hconds, hx⟩ := (hcs x).1 hx
    obtain ⟨a, ha, rfl⟩ := List.mem_map.1 hx
    obtain ⟨e, he, lhs, name, hs, hg⟩ := (calls_last_iff hc hp hf).1 hcalls
    exact (hbinding hcalls conds hconds a ha).2 (h e he lhs name args hs g hg conds hconds a ha)

/-- What is computed for the end of a path: a formula of the scope that says what the last location
asks for, and the ranking functions of a loop head and of the callees. -/
theorem exists_demand (hscope : f.InScope p S) :
    ∃ d, c.demand = .ok d ∧ d.post.ScopedIn [] S ∧ (∀ I σ, I.Holds σ d.post ↔ c.last.Asks p I σ) ∧
    ∀ R, R ∈ d.rankings ↔ (c.last.isLoopHead = true ∧ R = c.last.rankings) ∨
      ∃ g args ranks, c.Calls c.last.edges g args ∧ g.entryRankings = .ok ranks ∧
        R = ranks.map (Expr.subst (g.binding args)) := by
  obtain ⟨cs, rs, hdemands, hcs, hrs⟩ := exists_callDemands (exists_callee_last hc hp hf)
  refine ⟨_, bind_eq_ok.2 ⟨_, hdemands, rfl⟩, .conj fun x hx => ?_, fun I σ => ?_, fun R => ?_⟩
  · rcases List.mem_append.1 hx with hx | hx
    · split at hx
      · exact hscope.oneType.scopedIn fun v hv =>
          hscope.vars v (Procedure.mem_vars_of_mem_annotations hc.last hx hv)
      · cases hx
    · obtain ⟨g, args, conds, hg, hconds, hx⟩ := (hcs x).1 hx
      obtain ⟨hcontract, hlen, hargs⟩ := hg.inScope hc hscope
      obtain ⟨a, ha, rfl⟩ := List.mem_map.1 hx
      exact Procedure.scoped_binding (hcontract.oneType.mono fun v hv =>
        List.mem_append_left _ hv) hlen hargs (hcontract.entry conds hconds a ha)
  · rw [Interp.holds_conj, List.forall_mem_append, Location.Asks]
    refine and_congr ?_ (holds_callConditions hc hp hf hscope hcs I σ)
    by_cases hown : (c.last.isLoopHead || c.last.isExit) = true
    · rw [if_pos hown]
      exact ⟨fun h _ => h, fun h => h (Bool.or_eq_true_iff.1 hown)⟩
    · rw [if_neg hown]
      rw [Bool.or_eq_true] at hown
      exact ⟨fun _ h => absurd h hown, by simp⟩
  · by_cases hhead : c.last.isLoopHead = true
    · simp [hhead, hrs]
    · simp [hhead, hrs]

end Demand

end PathContext

end Cutpoint
