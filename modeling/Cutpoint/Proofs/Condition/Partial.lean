import Cutpoint.Proofs.Condition.Weakest

/-!
# Partial correctness of a path

`PathContext.exists_partialCorrectness`: the condition for a path is valid exactly if every
execution of the path from a state where the annotations of the first location hold ends, without a
failed assertion, in a state where what the last location asks for holds.
`partialCorrectness_valid_iff` states that for the basic paths of validated programs in which each
name has one sort.
-/

set_option autoImplicit false

namespace Cutpoint

theorem PathContext.exists_partialCorrectness {c : PathContext} {p : Program}
    {f : Procedure} {path : BasicPath} {S : List Var} (hc : c.IsOf p f path)
    (hp : ∀ g ∈ p.procedures, g.WellFormed p) (hf : f.WellFormed p) (hpath : f.IsBasic path)
    (hscope : f.InScope p S) {N : Names} (hN : ∀ x ∈ c.names, x ∈ N) :
    ∃ vc N', Naming.Gives c.partialCorrectness N vc N' ∧ (∀ x ∈ N, x ∈ N') ∧
      ∀ I : Interp, I.Valid vc ↔
      ∀ σ : State, σ.Fits S → (∀ a ∈ c.first.annotations, I.Holds σ a) →
        ∀ o, p.Executes I c.statements σ o → o.Meets (c.last.Asks p I) := by
  obtain ⟨d, hd, hdscope, hasks, -⟩ := exists_demand hc hp hf hscope
  obtain ⟨w, ws, N', hw, hnew, -, hwfree, hwholds⟩ :=
    weakest_gives (within hc hp hf hpath hscope) hdscope
    fun s hs x hx => hN x (hc.names_statements s hs x hx)
  rw [hc.program] at hwholds
  have hpre : c.precondition.ScopedIn [] S := .conj fun a ha => hscope.oneType.scopedIn fun v hv =>
    hscope.vars v (Procedure.mem_vars_of_mem_annotations hc.first ha hv)
  -- the results have names that the annotations do not mention
  have hprenew : ∀ v ∈ c.precondition.free, v.name ∉ Var.names ws := by
    intro v hv hn
    obtain ⟨a, ha, hv⟩ := (Expr.mem_free_conj _).1 hv
    refine hnew.not_mem _ hn
      (hN _ (hc.names_first _ (List.mem_flatMap.2 ⟨a, List.mem_append_left _ ha, ?_⟩)))
    exact Expr.mem_freeNames.2 ⟨v, hv, rfl⟩
  refine ⟨.implies c.precondition w, N', (Naming.gives_ofExcept hd N).bind (hw.bind rfl),
    hnew.grows, fun I => ?_⟩
  rw [Interp.valid_iff hscope.oneType hnew.nodup]
  · refine forall_congr' fun σ => imp_congr_right fun hσ => ?_
    calc (∀ ds, Var.Typed ws ds → I.Holds (σ.bind ws ds) (.implies c.precondition w))
        ↔ (I.Holds σ c.precondition → ∀ ds, Var.Typed ws ds → I.Holds (σ.bind ws ds) w) := by
          simp only [Interp.holds_implies]
          refine ⟨fun h hσ ds hds => h ds hds ?_, fun h ds hds hσ => h ?_ ds hds⟩
          · exact (Interp.holds_congr fun v hv => NameMap.bind_of_not_mem (hprenew v hv)).2 hσ
          · exact (Interp.holds_congr fun v hv => NameMap.bind_of_not_mem (hprenew v hv)).1 hσ
      _ ↔ _ := by
          rw [hwholds, precondition, Interp.holds_conj]
          simp only [hasks]
  · intro v hv
    rcases (Expr.mem_free_binary _ _ _).1 hv with hv | hv
    · exact Or.inr ⟨(Expr.scopedIn_nil.1 hpre).2 v hv, hprenew v hv⟩
    · exact hwfree v hv

/-- **The condition of a path is exact**: in a validated program where each name has one sort and
calls respect sorts, the condition of a basic path is valid if and only if every execution of its
statements, from any state where the annotations at its start hold, ends without a failed assertion
and with what its end asks for. -/
theorem partialCorrectness_valid_iff {p : Program} (hp : p.validate = .ok ())
    (hone : OneType p.vars) (hcalls : ∀ f ∈ p.procedures, f.CallsFit p) {f : Procedure}
    (hf : f ∈ p.procedures) {paths : List BasicPath} (hpaths : f.basicPaths = .ok paths)
    {path : BasicPath} (hpath : path ∈ paths) :
    ∃ c, PathContext.of p f path = .ok c ∧ ∀ N : Names, (∀ x ∈ c.names, x ∈ N) →
      ∃ vc, (c.partialCorrectness.run N).1 = .ok vc ∧ ∀ I : Interp, I.Valid vc ↔
        ∀ σ : State, σ.Fits p.vars → (∀ a ∈ c.first.annotations, I.Holds σ a) →
          ∀ o, p.Executes I c.statements σ o → o.Meets (c.last.Asks p I) := by
  have hwf := Program.wellFormed_of_validate hp
  have hbasic := (Procedure.mem_basicPaths (hwf f hf) hpaths).1 hpath
  obtain ⟨c, hc⟩ := PathContext.exists_of (hwf f hf) hbasic
  refine ⟨c, hc, fun N hN => ?_⟩
  obtain ⟨vc, N', hgives, -, hvalid⟩ := PathContext.exists_partialCorrectness
    (PathContext.isOf_of hc) hwf (hwf f hf) hbasic (Procedure.inScope_vars hone hf (hcalls f hf)) hN
  exact ⟨vc, congrArg Prod.fst hgives, hvalid⟩

/-! ## An example -/

namespace Counting

def n : Var := ⟨"n", .int⟩

def r : Var := ⟨"r", .int⟩

/-- Counts from 0 up to the parameter. -/
def count : Procedure where
  name := "count"
  parameters := [n]
  results := [r]
  entry := 0
  exit := 3
  locations := [
    ⟨.entry [.binary .ge (.var n) (.int 0)] [.binary .add (.var n) (.int 1)],
      [⟨1, .assign r (.int 0)⟩]⟩,
    ⟨.loopHead [.binary .le (.var r) (.var n)] [.binary .sub (.var n) (.var r)],
      [⟨2, .assume (.binary .lt (.var r) (.var n))⟩, ⟨3, .assume (.binary .ge (.var r) (.var n))⟩]⟩,
    ⟨.plain, [⟨1, .assign r (.binary .add (.var r) (.int 1))⟩]⟩,
    ⟨.exit [.binary .eq (.var r) (.var n)], []⟩]

/-- Calls `count` on its own parameter. -/
def main : Procedure where
  name := "main"
  parameters := [n]
  results := [r]
  entry := 0
  exit := 2
  locations := [
    ⟨.entry [.binary .gt (.var n) (.int 0)] [], [⟨1, .call [r] "count" [n]⟩]⟩,
    ⟨.plain, [⟨2, .assert (.binary .gt (.var r) (.int 0))⟩]⟩,
    ⟨.exit [.binary .eq (.var r) (.var n)], []⟩]

def program : Program := ⟨[], [count, main]⟩

end Counting

/-- The path of the call and the assertion after it. -/
theorem partialCorrectness_valid_iff_main :
    ∃ c, PathContext.of Counting.program Counting.main ⟨0, [(0, 1), (0, 2)]⟩ = .ok c ∧
      ∀ N : Names, (∀ x ∈ c.names, x ∈ N) →
      ∃ vc, (c.partialCorrectness.run N).1 = .ok vc ∧ ∀ I : Interp, I.Valid vc ↔
        ∀ σ : State, σ.Fits Counting.program.vars → (∀ a ∈ c.first.annotations, I.Holds σ a) →
          ∀ o, Counting.program.Executes I c.statements σ o →
            o.Meets (c.last.Asks Counting.program I) :=
  partialCorrectness_valid_iff rfl (by decide) (by decide)
    (List.mem_cons_of_mem _ List.mem_cons_self) (show Counting.main.basicPaths =
    .ok [⟨0, []⟩, ⟨0, [(0, 1), (0, 2)]⟩] from rfl) (by decide)

end Cutpoint
