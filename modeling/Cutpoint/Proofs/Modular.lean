import Mathlib.Data.List.Nodup
import Cutpoint.Proofs.Obligation

/-!
# Modularity

A procedure is verified against the contracts of its callees, and against nothing else of the
program.

* `Procedure.SameContract`: parameters, results, entry conditions, entry ranking functions and exit
  conditions are the same;
* `PathContext.AgreesIn`: the calls on a path, and those out of its last location, have callees of
  the same contracts in another program;
* `PathContext.obligations_inProgram`: then the path has the same obligations there;
* `Program.procedureObligations_of_obligations`: the obligations of a program are those of its
  procedures, each under its own name;
* `Program.obligations_modular`: two programs ask the same of a procedure that they share, if its
  callees have the same contracts.
-/

set_option autoImplicit false

namespace Cutpoint

/-! ## Contracts -/

namespace Procedure

/-- What a caller sees of a procedure. -/
structure SameContract (g h : Procedure) : Prop where
  parameters : g.parameters = h.parameters
  results : g.results = h.results
  entryConditions : g.entryConditions = h.entryConditions
  entryRankings : g.entryRankings = h.entryRankings
  exitConditions : g.exitConditions = h.exitConditions

theorem SameContract.binding {g h : Procedure} (hsame : g.SameContract h)
    (args : List Var) : g.binding args = h.binding args := by
  rw [Procedure.binding, Procedure.binding, hsame.parameters]

/-- Some edge of the procedure calls a procedure of the given name. -/
def CallsTo (f : Procedure) (name : String) : Prop :=
  ∃ l ∈ f.locations, ∃ e ∈ l.edges, ∃ lhs args, e.statement = .call lhs name args

end Procedure

/-! ## A path in two programs -/

namespace PathContext

/-- The same path, where callees are looked up in another program. -/
def inProgram (c : PathContext) (q : Program) : PathContext := { c with program := q }

theorem of_inProgram (p q : Program) (f : Procedure) (path : BasicPath) :
    PathContext.of q f path = (PathContext.of p f path).map (·.inProgram q) := by
  unfold PathContext.of
  cases path.edges f with
  | error e => rfl
  | ok es =>
    cases path.locations.mapM f.location with
    | error e => rfl
    | ok ls =>
      cases f.location path.start with
      | error e => rfl
      | ok first =>
        cases f.location path.finish with
        | error e => rfl
        | ok last => rfl

/-- A call has a callee in both programs, with the same contract. -/
def CalleeAgrees (c : PathContext) (q : Program) (s : Statement) : Prop :=
  ∀ lhs name args, s = .call lhs name args → ∃ g h, c.callee lhs name args = .ok g ∧
    (c.inProgram q).callee lhs name args = .ok h ∧ g.SameContract h

/-- All calls that the conditions of the path are about have callees in both programs, with the same
contracts. -/
structure AgreesIn (c : PathContext) (q : Program) : Prop where
  statements : ∀ s ∈ c.statements, c.CalleeAgrees q s
  last : ∀ e ∈ c.last.edges, c.CalleeAgrees q e.statement

section Congruence
variable {c : PathContext} {q : Program}

theorem callDemands_inProgram {es : List Edge} (h : ∀ e ∈ es, c.CalleeAgrees q e.statement) :
    (c.inProgram q).callDemands es = c.callDemands es := by
  induction es with
  | nil => rfl
  | cons e es ih =>
    rw [List.forall_mem_cons] at h
    have hrest := ih h.2
    unfold callDemands
    cases hs : e.statement with
    | call lhs name args =>
      obtain ⟨g, g', hg, hg', hsame⟩ := h.1 lhs name args hs
      simp only [hg, hg', hrest, bind, Except.bind, hsame.entryConditions, hsame.entryRankings,
        hsame.binding]
    | assign | assignAt | assume | assert => exact hrest

theorem demand_inProgram (h : c.AgreesIn q) : (c.inProgram q).demand = c.demand := by
  unfold demand
  rw [show (c.inProgram q).last = c.last from rfl, callDemands_inProgram h.last]

theorem weakestCall_inProgram {lhs args : List Var} {name : String}
    (h : c.CalleeAgrees q (.call lhs name args)) (post : Expr) :
    (c.inProgram q).weakestCall lhs name args post = c.weakestCall lhs name args post := by
  obtain ⟨g, g', hg, hg', hsame⟩ := h lhs name args rfl
  -- with the callee at hand only its contract is read
  have hcallee : ∀ {α : Type} (k : Procedure) (f : Procedure → Naming α),
      (Naming.ofExcept (.ok k) >>= f) = f k := fun _ _ => rfl
  simp only [weakestCall, hg, hg', hcallee, hsame.exitConditions, hsame.binding, hsame.results]

theorem weakestStep_inProgram {s : Statement} (h : c.CalleeAgrees q s) (post : Expr) :
    (c.inProgram q).weakestStep s post = c.weakestStep s post := by
  cases s with
  | call lhs name args => exact weakestCall_inProgram h post
  | assign | assignAt | assume | assert => rfl

theorem weakestAll_inProgram {ss : List Statement} (h : ∀ s ∈ ss, c.CalleeAgrees q s)
    (post : Expr) : (c.inProgram q).weakestAll ss post = c.weakestAll ss post := by
  induction ss with
  | nil => rfl
  | cons s ss ih =>
    rw [List.forall_mem_cons] at h
    rw [weakestAll, weakestAll, ih h.2, funext (weakestStep_inProgram h.1)]

theorem weakest_inProgram (h : c.AgreesIn q) (post : Expr) :
    (c.inProgram q).weakest post = c.weakest post := by
  rw [weakest, weakest, show (c.inProgram q).statements = c.statements from rfl,
    weakestAll_inProgram h.statements]

theorem partialCorrectness_inProgram (h : c.AgreesIn q) :
    (c.inProgram q).partialCorrectness = c.partialCorrectness := by
  rw [partialCorrectness, partialCorrectness, demand_inProgram h, funext (weakest_inProgram h)]
  rfl

theorem decreaseConditionBy_inProgram (h : c.AgreesIn q) (compare : Comparison) (pre : Expr)
    (entry exit : List Expr) :
    (c.inProgram q).decreaseConditionBy compare pre entry exit =
      c.decreaseConditionBy compare pre entry exit := by
  rw [decreaseConditionBy, decreaseConditionBy, funext (weakest_inProgram h)]

theorem decreaseConditionsBy_inProgram (h : c.AgreesIn q) (compare : Comparison) (pre : Expr)
    (entry : List Expr) (exits : List (List Expr)) :
    (c.inProgram q).decreaseConditionsBy compare pre entry exits =
      c.decreaseConditionsBy compare pre entry exits := by
  induction exits with
  | nil => rfl
  | cons exit exits ih =>
    rw [decreaseConditionsBy, decreaseConditionsBy, ih, decreaseConditionBy_inProgram h]
    rfl

theorem formulas_inProgram (h : c.AgreesIn q) : (c.inProgram q).formulas = c.formulas := by
  have hterm : ∀ exits, (c.inProgram q).termination c.precondition exits =
      c.termination c.precondition exits := by
    intro exits
    rw [termination, termination, show (c.inProgram q).rankings = c.rankings from rfl,
      decreaseConditions, decreaseConditionsBy_inProgram h]
    rfl
  rw [formulas, formulas, partialCorrectness_inProgram h, demand_inProgram h,
    show (c.inProgram q).precondition = c.precondition from rfl, funext hterm]

/-- A path has the same obligations in every program where its calls have the same contracts. -/
theorem obligations_inProgram (h : c.AgreesIn q) : (c.inProgram q).obligations = c.obligations := by
  rw [obligations, obligations, formulas_inProgram h]
  rfl

end Congruence

end PathContext

/-! ## A procedure in two programs -/

section Shared
variable {p q : Program} {f : Procedure} (hp : f.WellFormed p) (hq : f.WellFormed q)
  (hcallees : ∀ name, f.CallsTo name → ∀ g h, p.procedure name = .ok g → q.procedure name = .ok h →
  g.SameContract h)
include hp hq hcallees

/-- A call on an edge of the procedure has callees with the same contract. -/
theorem PathContext.IsOf.calleeAgrees {path : BasicPath} {c : PathContext} (hc : c.IsOf p f path)
    {id : Nat} {l : Location} (hl : f.location id = .ok l) {e : Edge} (he : e ∈ l.edges) :
    c.CalleeAgrees q e.statement := by
  intro lhs name args hs
  obtain ⟨g, hg, hcheck⟩ := hp.call hl he hs
  obtain ⟨h, hh, hcheck'⟩ := hq.call hl he hs
  have hcalls : f.CallsTo name :=
    ⟨l, List.mem_of_getElem? (Procedure.location_eq_ok.1 hl), e, he, lhs, args, hs⟩
  refine ⟨g, h, PathContext.callee_eq_ok.2 ?_, PathContext.callee_eq_ok.2 ?_,
    hcallees name hcalls g h hg hh⟩
  · rw [hc.program, hc.procedure]
    exact ⟨hg, hcheck⟩
  · rw [show (c.inProgram q).procedure = c.procedure from rfl, hc.procedure]
    exact ⟨hh, hcheck'⟩

theorem PathContext.IsOf.agreesIn {path : BasicPath} {c : PathContext} (hc : c.IsOf p f path) :
    c.AgreesIn q := by
  refine ⟨fun s hs => ?_, fun e he => hc.calleeAgrees hp hq hcallees hc.last he⟩
  obtain ⟨id, js, e, hjs, he, rfl⟩ := hc.edge_of_statement hs
  intro lhs name args hcall
  obtain ⟨l, hl, he⟩ := Procedure.mem_edges_of_call hjs he (by rw [hcall]; rfl)
  exact hc.calleeAgrees hp hq hcallees hl he lhs name args hcall

theorem Program.pathObligations_congr (path : BasicPath) :
    q.pathObligations f path = p.pathObligations f path := by
  rw [pathObligations, pathObligations, PathContext.of_inProgram p q]
  cases hc : PathContext.of p f path with
  | error e => rfl
  | ok c =>
    exact PathContext.obligations_inProgram ((PathContext.isOf_of hc).agreesIn hp hq hcallees)

theorem Program.procedureObligations_congr :
    q.procedureObligations f = p.procedureObligations f := by
  have hpaths : ∀ paths, q.pathsObligations f paths = p.pathsObligations f paths := by
    intro paths
    induction paths with
    | nil => rfl
    | cons path paths ih =>
      rw [pathsObligations, pathsObligations, ih, pathObligations_congr hp hq hcallees]
  rw [procedureObligations, procedureObligations, funext hpaths]

end Shared

/-! ## The obligations of one procedure -/

namespace Program
variable {p : Program}

theorem procedure_of_mem_pathObligations {f : Procedure} {path : BasicPath} {os : List Obligation}
    (h : p.pathObligations f path = .ok os) : ∀ o ∈ os, o.procedure = f.name := by
  rw [pathObligations, bind_eq_ok] at h
  obtain ⟨c, hc, h⟩ := h
  have hname : c.procedure.name = f.name := by rw [(PathContext.isOf_of hc).procedure]
  unfold PathContext.obligations at h
  dsimp only at h
  split at h
  · cases h
    simpa using hname
  · rw [bind_eq_ok] at h
    obtain ⟨⟨main, rest⟩, -, h⟩ := h
    cases h
    simp [hname]

theorem procedure_of_mem_procedureObligations {f : Procedure} {os : List Obligation}
    (h : p.procedureObligations f = .ok os) : ∀ o ∈ os, o.procedure = f.name := by
  rw [procedureObligations, bind_eq_ok] at h
  obtain ⟨paths, -, h⟩ := h
  induction paths generalizing os with
  | nil =>
    cases h
    simp
  | cons path paths ih =>
    rw [pathsObligations, bind_eq_ok] at h
    obtain ⟨obs, hobs, h⟩ := h
    rw [bind_eq_ok] at h
    obtain ⟨rest, hrest, h⟩ := h
    cases h
    exact List.forall_mem_append.2 ⟨procedure_of_mem_pathObligations hobs, ih hrest⟩

theorem filter_proceduresObligations {fs : List Procedure} {os : List Obligation}
    (hnodup : (fs.map Procedure.name).Nodup) (h : p.proceduresObligations fs = .ok os)
    (name : String) :
    (∀ f ∈ fs, f.name = name → p.procedureObligations f = .ok (os.filter (·.procedure = name))) ∧
    (name ∉ fs.map Procedure.name → os.filter (·.procedure = name) = []) := by
  induction fs generalizing os with
  | nil =>
    cases h
    simp
  | cons f fs ih =>
    rw [proceduresObligations, bind_eq_ok] at h
    obtain ⟨part, hpart, h⟩ := h
    rw [bind_eq_ok] at h
    obtain ⟨rest, hrest, h⟩ := h
    cases h
    rw [List.map_cons, List.nodup_cons] at hnodup
    obtain ⟨hof, hnone⟩ := ih hnodup.2 hrest
    have hown := procedure_of_mem_procedureObligations hpart
    rw [List.filter_append]
    by_cases hname : f.name = name
    · -- the obligations of `f` come first, and none of the others are under its name
      have hpart' : part.filter (·.procedure = name) = part :=
        List.filter_eq_self.2 fun o ho => decide_eq_true (hname ▸ hown o ho)
      have hrest' := hnone (hname ▸ hnodup.1)
      rw [hpart', hrest', List.append_nil]
      refine ⟨List.forall_mem_cons.2 ⟨fun _ => hpart, fun g hg hgname => ?_⟩,
        fun hnot => absurd ?_ hnot⟩
      · exact absurd (List.mem_map.2 ⟨g, hg, hgname.trans hname.symm⟩) hnodup.1
      · simp [hname]
    · have hpart' : part.filter (·.procedure = name) = [] :=
        List.filter_eq_nil_iff.2 fun o ho => by simpa [hown o ho] using hname
      rw [hpart', List.nil_append]
      refine ⟨List.forall_mem_cons.2 ⟨fun h => absurd h hname, hof⟩,
        fun hnot => hnone fun hin => hnot ?_⟩
      exact List.mem_cons_of_mem _ hin

/-- The obligations under the name of a procedure are the obligations of the procedure. -/
theorem procedureObligations_of_obligations {os : List Obligation}
    (h : p.obligations = .ok os) {f : Procedure} (hf : f ∈ p.procedures) :
    p.procedureObligations f = .ok (os.filter (·.procedure = f.name)) := by
  rw [obligations, seq_eq_ok] at h
  exact (filter_proceduresObligations (checkProcedures_eq_ok.1 h.1).1 h.2 f.name).1 f hf rfl

/-- Two validated programs that share a procedure, whose callees have the same contracts in both,
ask the same of it: on every path, on all basic paths, and among all that they ask. Bodies of
callees, other procedures, predicates and the order of procedures do not matter. -/
theorem obligations_modular {p q : Program} (hp : p.validate = .ok ()) (hq : q.validate = .ok ())
    {f : Procedure} (hfp : f ∈ p.procedures) (hfq : f ∈ q.procedures)
    (hcallees : ∀ name, f.CallsTo name → ∀ g h, p.procedure name = .ok g →
      q.procedure name = .ok h → g.SameContract h) :
    (∀ path, p.pathObligations f path = q.pathObligations f path) ∧
    p.procedureObligations f = q.procedureObligations f ∧
      ∀ os os', p.obligations = .ok os → q.obligations = .ok os' →
        os.filter (·.procedure = f.name) = os'.filter (·.procedure = f.name) := by
  have hwfp := wellFormed_of_validate hp f hfp
  have hwfq := wellFormed_of_validate hq f hfq
  have hsame := procedureObligations_congr hwfp hwfq hcallees
  refine ⟨fun path => (pathObligations_congr hwfp hwfq hcallees path).symm, hsame.symm,
    fun os os' hos hos' => ?_⟩
  rw [procedureObligations_of_obligations hos hfp,
    procedureObligations_of_obligations hos' hfq] at hsame
  exact Except.ok.inj hsame.symm

end Program

namespace Doubling

def n : Var := ⟨"n", .int⟩
def r : Var := ⟨"r", .int⟩
def k : Var := ⟨"k", .int⟩

def twice (v : Var) : Expr := .binary .add (.var v) (.var v)

/-- The entry and the exit that both callees have. -/
def start : Location.Kind := .entry [.binary .ge (.var n) (.int 0)] [.var n]
def finish : Location.Kind := .exit [.binary .eq (.var r) (twice n)]

def direct : Procedure :=
  ⟨"double", [n], [r], 0, 1, [⟨start, [⟨1, .assign r (twice n)⟩]⟩, ⟨finish, []⟩]⟩

/-- The same contract with other locations, and a loop over a variable of its own. -/
def looping : Procedure where
  name := "double"
  parameters := [n]
  results := [r]
  entry := 2
  exit := 1
  locations := [
    ⟨.loopHead [.binary .ge (.var k) (.int 0)] [.var k],
      [⟨0, .assign k (.binary .sub (.var k) (.int 1))⟩, ⟨1, .assign r (twice n)⟩]⟩,
    ⟨finish, []⟩,
    ⟨start, [⟨0, .assign k (.var n)⟩]⟩]

/-- Calls `double` on its parameter, from its only location besides entry and exit. -/
def main : Procedure where
  name := "main"
  parameters := [k]
  results := [n]
  entry := 0
  exit := 1
  locations := [
    ⟨.entry [.binary .gt (.var k) (.int 0)] [.binary .add (.var k) (.int 1)], []⟩,
    ⟨.exit [.binary .eq (.var n) (twice k)], []⟩,
    ⟨.plain, [⟨1, .call [n] "double" [k]⟩]⟩]

def other : Procedure := { main with name := "other" }

def before : Program := ⟨[], [main, direct]⟩
def after : Program := ⟨[⟨"even", [n], .ff⟩], [looping, other, main]⟩

theorem callees :
    ∀ name, main.CallsTo name →
      ∀ g h, before.procedure name = .ok g → after.procedure name = .ok h → g.SameContract h := by
  rintro name ⟨l, hl, e, he, lhs, args, hs⟩ g h hg hh
  have hname : name = "double" := by
    simp only [main, List.mem_cons, List.not_mem_nil, or_false] at hl
    rcases hl with rfl | rfl | rfl
    · cases he
    · cases he
    · rw [List.mem_singleton.1 he] at hs
      cases hs
      rfl
  subst hname
  cases hg
  cases hh
  exact ⟨rfl, rfl, rfl, rfl, rfl⟩

/-- The callees differ in what is asked of their bodies, and the caller has the same three
obligations in both programs. -/
theorem obligations_modular_doubling :
    before.validate = .ok () ∧ after.validate = .ok () ∧
    (∃ os os', before.procedureObligations direct = .ok os ∧
      after.procedureObligations looping = .ok os' ∧ os.length ≠ os'.length) ∧
    (∃ os, before.procedureObligations main = .ok os ∧ os.length = 3) ∧
    (∀ path, before.pathObligations main path = after.pathObligations main path) ∧
    before.procedureObligations main = after.procedureObligations main ∧
    ∀ os os', before.obligations = .ok os → after.obligations = .ok os' →
      os.filter (·.procedure = main.name) = os'.filter (·.procedure = main.name) :=
  ⟨rfl, rfl, ⟨_, _, rfl, rfl, by decide⟩, ⟨_, rfl, rfl⟩, Program.obligations_modular rfl rfl
    List.mem_cons_self (List.mem_cons_of_mem _ (List.mem_cons_of_mem _ List.mem_cons_self)) callees⟩

end Doubling

end Cutpoint
