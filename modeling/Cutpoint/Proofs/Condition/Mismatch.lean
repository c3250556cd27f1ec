import Cutpoint.Proofs.Condition.Total

/-!
# The one fault that validation leaves

In a validated program all that conditions need is there, whatever its paths, calls and contracts
are. What can still go wrong is that a path leads from ranking functions to others that are not as
many.

* `PathContext.decreaseConditionsBy_inPlaceOr`: ranking functions are compared only where they are
  equally many;
* `PathContext.FirstMismatch`: the first tuple that a path leads to and that cannot be compared with
  the one at its start;
* `PathContext.decreaseConditions_fails`, `PathContext.IsOf.obligations_fails`: the conditions of a
  path are computed unless there is one;
* `path_faults`: in a validated program the search finds the paths, their contexts and conditions
  are computed, and their obligations are except where ranking functions do not match.
-/

set_option autoImplicit false

namespace Cutpoint

namespace PathContext

/-! ## Comparisons -/

/-- The comparison in place, or the fault `out` if a component of the first tuple is missing. -/
def inPlaceOr (out : Fault) : Comparison := fun exit entry =>
  match lexDecrease? exit entry with
  | some e => .ok e
  | none => .error out

theorem inPlaceOr_eq (out : Fault) {exit entry : List Expr} (h : exit.length = entry.length) :
    inPlaceOr out exit entry = inPlace exit entry := by
  rw [inPlaceOr, inPlace, lexDecrease?, if_neg (by omega)]

theorem decreaseConditionBy_inPlaceOr (c : PathContext) (out : Fault) (pre : Expr)
    {entry exit : List Expr} (h : exit.length = entry.length) :
    c.decreaseConditionBy (inPlaceOr out) pre entry exit =
      c.decreaseConditionBy inPlace pre entry exit := by
  unfold decreaseConditionBy
  refine bind_congr fun frozen => ?_
  dsimp only
  rw [inPlaceOr_eq out (by rw [List.length_map, h])]

/-- No comparison misses a component: the lengths are the same wherever there is one. -/
theorem decreaseConditionsBy_inPlaceOr (c : PathContext) (out : Fault) (pre : Expr)
    (entry : List Expr) (exits : List (List Expr)) :
    c.decreaseConditionsBy (inPlaceOr out) pre entry exits =
      c.decreaseConditions pre entry exits := by
  rw [decreaseConditions]
  induction exits with
  | nil => rfl
  | cons exit exits ih =>
    rw [decreaseConditionsBy, decreaseConditionsBy, ih]
    split
    · rfl
    · split
      · rfl
      · next hlen => rw [c.decreaseConditionBy_inPlaceOr out pre (not_not.1 hlen)]

/-! ## Tuples that cannot be compared -/

/-- The tuple `R` is the first among the given ones that is neither empty nor as long as `entry`. -/
def FirstMismatch (entry : List Expr) (exits : List (List Expr)) (R : List Expr) : Prop :=
  R ≠ [] ∧ R.length ≠ entry.length ∧ ∃ before after, exits = before ++ R :: after ∧
    ∀ Q ∈ before, Q ≠ [] → Q.length = entry.length

theorem not_firstMismatch_nil {entry R : List Expr} : ¬ FirstMismatch entry [] R := by
  rintro ⟨-, -, before, after, h, -⟩
  simp at h

theorem firstMismatch_cons {entry R Q : List Expr} {exits : List (List Expr)} :
    FirstMismatch entry (Q :: exits) R ↔ (R = Q ∧ Q ≠ [] ∧ Q.length ≠ entry.length) ∨
    ((Q ≠ [] → Q.length = entry.length) ∧ FirstMismatch entry exits R) := by
  constructor
  · rintro ⟨hne, hlen, before, after, heq, hbefore⟩
    cases before with
    | nil =>
      obtain ⟨rfl, -⟩ := List.cons.inj heq
      exact .inl ⟨rfl, hne, hlen⟩
    | cons P before =>
      obtain ⟨rfl, rfl⟩ := List.cons.inj heq
      rw [List.forall_mem_cons] at hbefore
      exact .inr ⟨hbefore.1, hne, hlen, before, after, rfl, hbefore.2⟩
  · rintro (⟨rfl, hne, hlen⟩ | ⟨hQ, hne, hlen, before, after, rfl, hbefore⟩)
    · exact ⟨hne, hlen, [], exits, rfl, by simp⟩
    · exact ⟨hne, hlen, Q :: before, after, rfl, List.forall_mem_cons.2 ⟨hQ, hbefore⟩⟩

/-- Of tuples that cannot be compared one is the first. -/
theorem exists_firstMismatch {entry : List Expr} {exits : List (List Expr)} :
    (∃ R, FirstMismatch entry exits R) ↔ ∃ R ∈ exits, R ≠ [] ∧ R.length ≠ entry.length := by
  induction exits with
  | nil => simp [not_firstMismatch_nil]
  | cons Q exits ih =>
    simp only [firstMismatch_cons, List.exists_mem_cons_iff, ← ih]
    by_cases hQ : Q ≠ [] ∧ Q.length ≠ entry.length
    · exact iff_of_true ⟨Q, .inl ⟨rfl, hQ⟩⟩ (.inl hQ)
    · have hsame : Q ≠ [] → Q.length = entry.length :=
        fun hne => by_contra fun hlen => hQ ⟨hne, hlen⟩
      rw [or_iff_right hQ]
      refine exists_congr fun R => ?_
      rw [or_iff_right (fun h => hQ h.2), and_iff_right hsame]

/-! ## Faults -/

section Faults
variable {c : PathContext}

/-- The fault for a tuple that cannot be compared with the one at the start of the path. -/
def rankingFault (c : PathContext) (R : List Expr) : Fault :=
  .mismatch c.procedure.name (.rankings c.path.locations R.length c.rankings.length)

theorem decreaseConditions_fails (h : c.Resolves c.statements) (pre : Expr)
    {exits : List (List Expr)} {N : Names} {e : Fault} :
    Naming.Fails (c.decreaseConditions pre c.rankings exits) N e ↔
      ∃ R, FirstMismatch c.rankings exits R ∧ e = c.rankingFault R := by
  induction exits generalizing N with
  | nil =>
    refine iff_of_false ((Naming.gives_pure _ _).not_fails e) ?_
    rintro ⟨R, hR, -⟩
    exact not_firstMismatch_nil hR
  | cons Q exits ih =>
    rw [decreaseConditions, decreaseConditionsBy]
    by_cases hempty : Q = []
    · rw [if_pos (List.isEmpty_iff.2 hempty), ← decreaseConditions, ih]
      simp [firstMismatch_cons, hempty]
    · rw [if_neg (by simpa using hempty)]
      by_cases hlen : Q.length = c.rankings.length
      · obtain ⟨vc, N', hvc, -⟩ := decreaseConditionBy_total h pre c.rankings Q N
        rw [if_neg (not_not.2 hlen), hvc.fails_bind, Naming.fails_bind_pure,
          ← decreaseConditions, ih]
        simp [firstMismatch_cons, hlen]
      · rw [if_pos hlen]
        have hfault : Naming.Fails (throw (c.rankingFault Q) : Naming (List Expr)) N e ↔
            e = c.rankingFault Q := by
          show Except.error (c.rankingFault Q) = Except.error e ↔ _
          rw [Except.error.injEq, eq_comm]
        refine hfault.trans ?_
        simp [firstMismatch_cons, hempty, hlen]

section Basic
variable {p : Program} {f : Procedure} {path : BasicPath} (hc : c.IsOf p f path)
  (hp : ∀ g ∈ p.procedures, g.WellFormed p) (hf : f.WellFormed p)
include hc hp hf

/-- The obligations of a basic path are computed, unless its start has ranking functions, none of
them a negation, and it leads to others that are not as many. -/
theorem IsOf.obligations_fails {d : Demand} (hd : c.demand = .ok d) {e : Fault} :
    c.obligations = .error e ↔
    c.rankings ≠ [] ∧ (∀ r ∈ c.rankings, r.isNegation = false) ∧
    ∃ R, FirstMismatch c.rankings d.rankings R ∧ e = c.rankingFault R := by
  unfold obligations
  by_cases hneg : c.rankings.any Expr.isNegation = true
  · rw [if_pos hneg]
    have hno : ¬ ∀ r ∈ c.rankings, r.isNegation = false := by simpa using hneg
    simp [hno]
  · rw [if_neg hneg]
    have hnone : ∀ r ∈ c.rankings, r.isNegation = false := by simpa using hneg
    obtain ⟨main, N, hmain, -⟩ := hc.partialCorrectness_total hp hf hd c.names
    have hformulas : Naming.Fails c.formulas c.names e ↔
        Naming.Fails (c.termination c.precondition d.rankings) N e := by
      rw [formulas, hmain.fails_bind, (Naming.gives_ofExcept hd N).fails_bind,
        Naming.fails_bind_pure]
    rw [bind_eq_error fun _ _ h => by cases h]
    refine hformulas.trans ?_
    rw [termination]
    by_cases hempty : c.rankings = []
    · rw [if_pos (List.isEmpty_iff.2 hempty)]
      exact iff_of_false ((Naming.gives_pure _ _).not_fails e) fun h => h.1 hempty
    · rw [if_neg (by simpa using hempty), decreaseConditions_fails (hc.resolves hp hf)]
      exact ⟨fun h => ⟨hempty, hnone, h⟩, fun h => h.2.2⟩

end Basic

end Faults

end PathContext

/-- **Validation leaves one fault**: in a validated program the search for basic paths succeeds for
every procedure. For every path it finds, the context, what is asked at its end and the condition
for partial correctness are computed. Computing the obligations of the path fails exactly if there
are ranking functions at its start, none of them a negation, and it leads to some that are not as
many; the fault names the first of these. No comparison of ranking functions misses a component. -/
theorem path_faults {p : Program} (hp : p.validate = .ok ()) {f : Procedure}
    (hf : f ∈ p.procedures) :
    ∃ paths, f.basicPaths = .ok paths ∧ ∀ path ∈ paths, ∃ c d, PathContext.of p f path = .ok c ∧
      f.location path.start = .ok c.first ∧ c.demand = .ok d ∧
      (∀ N, ∃ main, (c.partialCorrectness.run N).1 = .ok main) ∧
      ((∃ e, p.pathObligations f path = .error e) ↔ c.first.rankings ≠ [] ∧
        (∀ r ∈ c.first.rankings, r.isNegation = false) ∧
        ∃ R ∈ d.rankings, R ≠ [] ∧ R.length ≠ c.first.rankings.length) ∧
      (∀ e, p.pathObligations f path = .error e →
        ∃ R, PathContext.FirstMismatch c.first.rankings d.rankings R ∧
        e = .mismatch f.name (.rankings path.locations R.length c.first.rankings.length)) ∧
      ∀ out, c.decreaseConditionsBy (PathContext.inPlaceOr out) c.precondition c.first.rankings
        d.rankings = c.decreaseConditions c.precondition c.first.rankings d.rankings := by
  have hwf := Program.wellFormed_of_validate hp
  obtain ⟨paths, hpaths⟩ := (hwf f hf).exists_basicPaths
  refine ⟨paths, hpaths, fun path hpath => ?_⟩
  obtain ⟨c, hof⟩ :=
    PathContext.exists_of (hwf f hf) ((Procedure.mem_basicPaths (hwf f hf) hpaths).1 hpath)
  have hc := PathContext.isOf_of hof
  obtain ⟨d, hd⟩ := hc.demand_total hwf (hwf f hf)
  have hfails : ∀ e, p.pathObligations f path = .error e ↔ c.first.rankings ≠ [] ∧
      (∀ r ∈ c.first.rankings, r.isNegation = false) ∧
      ∃ R, PathContext.FirstMismatch c.first.rankings d.rankings R ∧ e = c.rankingFault R :=
    fun e => by
    rw [Program.pathObligations, hof]
    exact hc.obligations_fails hwf (hwf f hf) hd
  refine ⟨c, d, hof, hc.first, hd, fun N => ?_, ?_, fun e he => ?_,
    fun out => c.decreaseConditionsBy_inPlaceOr out _ _ _⟩
  · obtain ⟨main, N', hmain, -⟩ := hc.partialCorrectness_total hwf (hwf f hf) hd N
    exact ⟨main, congrArg Prod.fst hmain⟩
  · rw [← PathContext.exists_firstMismatch]
    constructor
    · rintro ⟨e, he⟩
      obtain ⟨hne, hnone, R, hR, -⟩ := (hfails e).1 he
      exact ⟨hne, hnone, R, hR⟩
    · rintro ⟨hne, hnone, R, hR⟩
      exact ⟨_, (hfails _).2 ⟨hne, hnone, R, hR, rfl⟩⟩
  · obtain ⟨-, -, R, hR, rfl⟩ := (hfails e).1 he
    refine ⟨R, hR, ?_⟩
    rw [PathContext.rankingFault, hc.procedure, PathContext.path_of hof]
    rfl

namespace Skewed

def n : Var := ⟨"n", .int⟩

/-- Has a pair of ranking functions. -/
def pair : Procedure where
  name := "pair"
  parameters := [n]
  results := []
  entry := 0
  exit := 1
  locations := [⟨.entry [] [.var n, .var n], [⟨1, .assume .tt⟩]⟩, ⟨.exit [], []⟩]

/-- Has a single ranking function at its entry and its loop head, which calls `pair`. -/
def single : Procedure where
  name := "single"
  parameters := [n]
  results := []
  entry := 0
  exit := 2
  locations := [
    ⟨.entry [] [.var n], [⟨1, .assume .tt⟩]⟩,
    ⟨.loopHead [] [.var n], [⟨1, .call [] "pair" [n]⟩, ⟨2, .assume .tt⟩]⟩,
    ⟨.exit [], []⟩]

def program : Program := ⟨[], [pair, single]⟩

end Skewed

/-- The path to the loop head leads to a tuple that can be compared and then to one that cannot. -/
theorem path_faults_skewed :
    ∃ paths, Skewed.single.basicPaths = .ok paths ∧ ⟨0, [(0, 1)]⟩ ∈ paths ∧
      ∃ c d, PathContext.of Skewed.program Skewed.single ⟨0, [(0, 1)]⟩ = .ok c ∧ c.demand = .ok d ∧
        (∃ e, Skewed.program.pathObligations Skewed.single ⟨0, [(0, 1)]⟩ = .error e) ∧
        ∀ e, Skewed.program.pathObligations Skewed.single ⟨0, [(0, 1)]⟩ = .error e →
          e = .mismatch "single" (.rankings [0, 1] 2 1) := by
  obtain ⟨paths, hpaths, h⟩ :=
    path_faults (p := Skewed.program) rfl (List.mem_cons_of_mem _ List.mem_cons_self)
  have hmem : (⟨0, [(0, 1)]⟩ : BasicPath) ∈ paths := by
    cases Except.ok.inj (hpaths.symm.trans (show _ = Except.ok _ from rfl))
    decide
  obtain ⟨c, d, hof, -, hd, -, hfails, -⟩ := h _ hmem
  cases Except.ok.inj (hof.symm.trans (show _ = Except.ok _ from rfl))
  cases Except.ok.inj (hd.symm.trans (show _ = Except.ok _ from rfl))
  refine ⟨paths, hpaths, hmem, _, _, hof, hd, hfails.2 (by decide), ?_⟩
  rintro e ⟨⟩
  rfl

end Cutpoint
