import Cutpoint.Proofs.Condition.Partial

/-!
# Where one path ends and another starts

What is asked at the end of a path should be all that is assumed at the start of the paths that go
on from there.

* `Location.demanded`: the annotations of its last location that a path has to establish. These are
  all annotations, except those of the entry;
* `demand_chains_iff`: so what is asked where a path ends implies what is assumed where the next one
  starts, unless that is the entry, of which nothing is asked but what the calls out of it ask. A
  path leads there if an edge does and the entry is a call site, and then its conditions are assumed
  without having been shown (`Restart.entry_not_demanded`).
-/

set_option autoImplicit false

namespace Cutpoint

/-- What a path to the location has to establish, besides what calls ask. -/
def Location.demanded (l : Location) : List Expr :=
  if l.isLoopHead || l.isExit then l.annotations else []

theorem Location.demanded_of_not_entry {l : Location} (h : l.isEntry = false) :
    l.demanded = l.annotations := by
  unfold Location.isEntry at h
  unfold demanded isLoopHead isExit annotations
  cases hkind : l.kind with
  | entry cs rs =>
    rw [hkind] at h
    cases h
  | exit cs => rfl
  | loopHead is rs => rfl
  | plain => rfl

theorem Location.demanded_of_entry {l : Location} (h : l.isEntry = true) : l.demanded = [] := by
  unfold Location.isEntry at h
  unfold demanded isLoopHead isExit
  cases hkind : l.kind with
  | entry cs rs => rfl
  | exit cs | loopHead is rs | plain =>
    rw [hkind] at h
    cases h

theorem PathContext.demand_of_callDemands {c : PathContext} {cs : List Expr} {rs : List (List Expr)}
    (h : c.callDemands c.last.edges = .ok (cs, rs)) :
    ∃ d, c.demand = .ok d ∧ ∀ (I : Interp) (σ : State),
      I.Holds σ d.post ↔ (∀ a ∈ c.last.demanded, I.Holds σ a) ∧ ∀ a ∈ cs, I.Holds σ a := by
  refine ⟨_, bind_eq_ok.2 ⟨_, h, rfl⟩, fun I σ => ?_⟩
  rw [Interp.holds_conj, List.forall_mem_append]
  rfl

/-- **Basic paths chain, except at the entry**: where a path ends and another starts, what is asked
at the end of the first implies what is assumed at the start of the second; if they meet at the
entry, then only as far as the entry conditions follow from what the calls out of the entry ask. -/
theorem demand_chains_iff {p : Program} (hp : p.validate = .ok ()) {f : Procedure}
    (hf : f ∈ p.procedures) {paths : List BasicPath} (hpaths : f.basicPaths = .ok paths)
    {path next : BasicPath} (hpath : path ∈ paths) (hnext : next ∈ paths)
    (hmeet : path.finish = next.start) :
    ∃ c c' d cs rs conditions, PathContext.of p f path = .ok c ∧
      PathContext.of p f next = .ok c' ∧ c.demand = .ok d ∧
      c.callDemands c.last.edges = .ok (cs, rs) ∧
      f.entryConditions = .ok conditions ∧ ∀ (I : Interp) (σ : State),
        ((I.Holds σ d.post → I.Holds σ c'.precondition) ↔
          (next.start = f.entry → (∀ a ∈ cs, I.Holds σ a) → ∀ a ∈ conditions, I.Holds σ a)) := by
  have hwf := Program.wellFormed_of_validate hp
  obtain ⟨c, hof⟩ :=
    PathContext.exists_of (hwf f hf) ((Procedure.mem_basicPaths (hwf f hf) hpaths).1 hpath)
  obtain ⟨c', hof'⟩ :=
    PathContext.exists_of (hwf f hf) ((Procedure.mem_basicPaths (hwf f hf) hpaths).1 hnext)
  have hc := PathContext.isOf_of hof
  have hc' := PathContext.isOf_of hof'
  obtain ⟨cs, rs, hdemands, -, -⟩ :=
    PathContext.exists_callDemands (PathContext.exists_callee_last hc hwf (hwf f hf))
  obtain ⟨d, hd, hpost⟩ := PathContext.demand_of_callDemands hdemands
  obtain ⟨l, hl, hentry⟩ := (hwf f hf).entry
  have hconditions : f.entryConditions = .ok l.annotations := by
    rw [Procedure.entryConditions, hl]
    rfl
  refine ⟨c, c', d, cs, rs, l.annotations, hof, hof', hd, hdemands, hconditions, fun I σ => ?_⟩
  -- the paths meet at one location
  have hsame : c'.first = c.last := Except.ok.inj (hc'.first.symm.trans (hmeet ▸ hc.last))
  rw [hpost, PathContext.precondition, Interp.holds_conj, hsame]
  by_cases hid : next.start = f.entry
  · have hlast : c.last = l := Except.ok.inj (hc.last.symm.trans (by rw [hmeet, hid, hl]))
    rw [hlast, Location.demanded_of_entry hentry]
    simp [hid]
  · have hkind : c.last.isEntry = false := by
      rw [Bool.eq_false_iff]
      exact fun h => hid (hmeet ▸ (hwf f hf).entry_unique _ _ hc.last h)
    rw [Location.demanded_of_not_entry hkind]
    exact ⟨fun _ h => absurd h hid, fun _ h => h.1⟩

/-- The invariant that is shown on arrival at the loop is the one that its body starts from. -/
theorem demand_chains_count :
    ∃ c c' d, PathContext.of Counting.program Counting.count ⟨0, [(0, 1)]⟩ = .ok c ∧
    PathContext.of Counting.program Counting.count ⟨1, [(0, 2), (0, 1)]⟩ = .ok c' ∧
    c.demand = .ok d ∧
    ∀ (I : Interp) (σ : State), I.Holds σ d.post → I.Holds σ c'.precondition := by
  have hpaths : Counting.count.basicPaths =
      .ok [⟨0, [(0, 1)]⟩, ⟨1, [(1, 3)]⟩, ⟨1, [(0, 2), (0, 1)]⟩] := rfl
  obtain ⟨c, c', d, cs, rs, conditions, hc, hc', hd, -, -, hchain⟩ :=
    demand_chains_iff (p := Counting.program) rfl List.mem_cons_self hpaths
    (show ⟨0, [(0, 1)]⟩ ∈ _ by decide) (show ⟨1, [(0, 2), (0, 1)]⟩ ∈ _ by decide) rfl
  exact ⟨c, c', d, hc, hc', hd, fun I σ => (hchain I σ).2 fun hentry => absurd hentry (by decide)⟩

/-! ## A way back to the entry -/

namespace Restart

def n : Var := ⟨"n", .int⟩

def idle : Procedure := ⟨"idle", [], [], 0, 1, [⟨.entry [] [], []⟩, ⟨.exit [], []⟩]⟩

/-- The entry is a call site, and the loop leads back to it after the variable of its condition was
changed. -/
def restart : Procedure where
  name := "restart"
  parameters := [n]
  results := []
  entry := 0
  exit := 3
  locations := [
    ⟨.entry [.binary .eq (.var n) (.int 0)] [], [⟨1, .call [] "idle" []⟩]⟩,
    ⟨.plain, [⟨2, .assert (.binary .eq (.var n) (.int 0))⟩]⟩,
    ⟨.loopHead [] [], [⟨0, .assign n (.int 1)⟩, ⟨3, .assume .tt⟩]⟩,
    ⟨.exit [], []⟩]

def program : Program := ⟨[], [idle, restart]⟩

/-- The path back to the entry does not have to establish what the path from there assumes. -/
theorem entry_not_demanded :
    program.validate = .ok () ∧ restart ∈ program.procedures ∧
    ∃ paths, restart.basicPaths = .ok paths ∧
      ⟨2, [(0, 0)]⟩ ∈ paths ∧ ⟨0, [(0, 1), (0, 2)]⟩ ∈ paths ∧
      ∃ c c' d, PathContext.of program restart ⟨2, [(0, 0)]⟩ = .ok c ∧
      PathContext.of program restart ⟨0, [(0, 1), (0, 2)]⟩ = .ok c' ∧ c.demand = .ok d ∧
      ∀ I : Interp, ∃ σ : State, σ.Fits restart.vars ∧ I.Holds σ d.post ∧
        ¬ I.Holds σ c'.precondition := by
  refine ⟨rfl, List.mem_cons_of_mem _ List.mem_cons_self, _, rfl, by decide, by decide, _, _, _,
    rfl, rfl, rfl, fun I => ?_⟩
  have hint : ∀ v ∈ restart.vars, v.ty = .int := by decide
  refine ⟨fun _ => .int 1, fun v hv => (hint v hv).symm, rfl, ?_⟩
  simp [PathContext.precondition, Location.annotations, Expr.conj, Interp.Holds, BinOp.value]

end Restart

end Cutpoint
