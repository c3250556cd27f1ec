import Cutpoint.Proofs.Condition.Decrease
import Cutpoint.Proofs.Condition.Total

/-!
# The names of frozen values

While a termination condition is carried backwards, the values at the start of the path are kept
under new names.

* `PathContext.Unmentioned`: a name that occurs neither on the path nor in what is asked at its end;
* `frozen_unmentioned`: the new names are such names. In the ranking functions that the values are
  compared with, and in the conditions of callees, they do not occur as long as the variables with a
  dollar sign there are variables of the path.

The names in use when the values are frozen are those of the path and of what has been computed
before. The ranking functions of a callee, with arguments for parameters, are not among them, and
there a new name can clash (`Alias.frozen_in_rankings`).
-/

set_option autoImplicit false

namespace Cutpoint

namespace PathContext

/-- The name occurs neither in statements and locations of the path, nor in the exit conditions of
its callee, nor in what is asked at its end, where the entry conditions of callees have their
arguments. -/
structure Unmentioned (c : PathContext) (d : Demand) (x : String) : Prop where
  statements : ∀ s ∈ c.statements, x ∉ s.names
  locations : ∀ id ∈ c.path.locations, ∀ l, c.procedure.location id = .ok l →
    ∀ a ∈ l.annotations ++ l.rankings, x ∉ a.freeNames
  exit : ¬ c.ExitName c.statements x
  post : x ∉ d.post.freeNames

/-- The procedure is called on the path, or by an edge out of its last location. -/
def Involves (c : PathContext) (g : Procedure) : Prop :=
  c.Invokes c.statements g ∨ ∃ args, c.Calls c.last.edges g args

/-- A name that is not in use is not mentioned, where the names of the path and of its partial
correctness are in use. -/
theorem unmentioned_of_not_mem {p : Program} {f : Procedure} {path : BasicPath} {c : PathContext}
    (hof : PathContext.of p f path = .ok c) {d : Demand} {N : Names} (hnames : ∀ x ∈ c.names, x ∈ N)
    (hpost : ∀ x ∈ d.post.freeNames, x ∈ N) (hexit : ∀ x, c.ExitName c.statements x → x ∈ N)
    {x : String} (hx : x ∉ N) : c.Unmentioned d x := by
  refine ⟨fun s hs h => ?_, fun id hid l hl a ha h => ?_, fun h => hx (hexit x h),
    fun h => hx (hpost x h)⟩
  · exact hx (hnames x ((isOf_of hof).names_statements s hs x h))
  · rw [path_of hof] at hid
    rw [(isOf_of hof).procedure] at hl
    exact hx (hnames x (names_locations hof id hid l hl x (List.mem_flatMap.2 ⟨a, ha, h⟩)))

end PathContext

/-- **Frozen values have new names**: in a valid program, when the ranking functions at the start of
a basic path are compared with a tuple `R` that it leads to, the names that keep their values are
mentioned neither on the path nor in what is asked at its end. They do not occur in `R`, with
arguments for parameters, or in a condition of a procedure that the path involves either, as long as
the variables with a dollar sign there are variables of the path. -/
theorem frozen_unmentioned {p : Program} (hp : p.validate = .ok ()) {f : Procedure}
    (hf : f ∈ p.procedures) {paths : List BasicPath} (hpaths : f.basicPaths = .ok paths)
    {path : BasicPath} (hpath : path ∈ paths) :
    ∃ c d main N, PathContext.of p f path = .ok c ∧ c.demand = .ok d ∧
      Naming.Gives c.partialCorrectness c.names main N ∧
      ∀ before R after vcs M, d.rankings = before ++ R :: after →
        Naming.Gives (c.decreaseConditions c.precondition c.rankings before) N vcs M →
        ∃ frozen M',
          Naming.Gives (Naming.freshAll (PathContext.rankingVars c.rankings)) M frozen M' ∧
          ∀ x ∈ Var.names frozen, c.Unmentioned d x ∧
            ∀ a : Expr, (a ∈ R ∨ ∃ g conditions, c.Involves g ∧
            (g.entryConditions = .ok conditions ∨ g.exitConditions = .ok conditions) ∧
            a ∈ conditions) → (∀ v ∈ a.free, '$' ∈ v.name.toList → v.name ∈ c.names) →
            x ∉ a.freeNames := by
  have hwf := Program.wellFormed_of_validate hp
  obtain ⟨c, hof⟩ :=
    PathContext.exists_of (hwf f hf) ((Procedure.mem_basicPaths (hwf f hf) hpaths).1 hpath)
  have hc := PathContext.isOf_of hof
  obtain ⟨d, hd⟩ := hc.demand_total hwf (hwf f hf)
  obtain ⟨main, N, hmain, hnames, hpost, hexit⟩ :=
    hc.partialCorrectness_total hwf (hwf f hf) hd c.names
  refine ⟨c, d, main, N, hof, hd, hmain, fun before R after vcs M _ hvcs => ?_⟩
  -- the names that were in use before the earlier tuples are so after them
  obtain ⟨vcs', M', hvcs', hgrows, -⟩ := PathContext.decreaseConditions_total
    (hc.resolves hwf (hwf f hf)) c.precondition (PathContext.length_of_decreaseConditions hvcs) N
  obtain ⟨rfl, rfl⟩ := hvcs'.unique hvcs
  obtain ⟨frozen, M'', hfrozen, hnew, -⟩ :=
    Naming.freshAll_gives (PathContext.rankingVars c.rankings) M'
  refine ⟨frozen, M'', hfrozen, fun x hx => ?_⟩
  have hxN : x ∉ N := fun h => hnew.not_mem x hx (hgrows x h)
  refine ⟨PathContext.unmentioned_of_not_mem hof hnames hpost hexit hxN, fun a _ hdollar hxa => ?_⟩
  obtain ⟨v, hv, rfl⟩ := Expr.mem_freeNames.1 hxa
  exact hxN (hnames _ (hdollar v hv (hnew.dollar _ hx)))

/-- Around the loop the values of two variables are frozen. -/
theorem frozen_unmentioned_count :
    ∃ c d N frozen M, PathContext.of Counting.program Counting.count ⟨1, [(0, 2), (0, 1)]⟩ = .ok c ∧
      c.demand = .ok d ∧ d.rankings = [c.rankings] ∧
    Naming.Gives (Naming.freshAll (PathContext.rankingVars c.rankings)) N frozen M ∧
    Var.names frozen = ["n$0", "r$0"] ∧
    ∀ x ∈ Var.names frozen, c.Unmentioned d x ∧ ∀ a ∈ c.rankings, x ∉ a.freeNames := by
  have hpaths : Counting.count.basicPaths =
      .ok [⟨0, [(0, 1)]⟩, ⟨1, [(1, 3)]⟩, ⟨1, [(0, 2), (0, 1)]⟩] := rfl
  obtain ⟨c, d, main, N, hc, hd, hmain, h⟩ := frozen_unmentioned
    (p := Counting.program) rfl List.mem_cons_self hpaths (show ⟨1, [(0, 2), (0, 1)]⟩ ∈ _ by decide)
  cases Except.ok.inj (hc.symm.trans (show _ = Except.ok _ from rfl))
  cases Except.ok.inj (hd.symm.trans (show _ = Except.ok _ from rfl))
  obtain ⟨rfl, rfl⟩ := hmain.unique (show Naming.Gives _ _ _ _ from rfl)
  obtain ⟨frozen, M, hfrozen, hfresh⟩ := h [] _ [] [] _ rfl rfl
  obtain ⟨rfl, rfl⟩ := hfrozen.unique (show Naming.Gives _ _ _ _ from rfl)
  refine ⟨_, _, _, _, _, hc, hd, rfl, hfrozen, rfl, fun x hx => ⟨(hfresh x hx).1, fun a ha => ?_⟩⟩
  have hplain : ∀ a ∈ [Expr.binary .sub (.var Counting.n) (.var Counting.r)], ∀ v ∈ a.free,
      '$' ∉ v.name.toList := by
    decide
  exact (hfresh x hx).2 a (Or.inl ha) fun v hv hdollar => absurd hdollar (hplain a ha v hv)

/-! ## An argument named like a frozen value -/

namespace Alias

def n : Var := ⟨"n", .int⟩

/-- The second parameter has the name that the value of the first one is kept under. -/
def n₀ : Var := ⟨"n$0", .int⟩

def m : Var := ⟨"m", .int⟩

def leaf : Procedure :=
  ⟨"leaf", [m], [], 0, 1, [⟨.entry [] [.binary .sub (.var m) (.int 1)], []⟩, ⟨.exit [], []⟩]⟩

/-- Ranked by its first parameter, and calls `leaf` on the second. -/
def walk : Procedure where
  name := "walk"
  parameters := [n, n₀]
  results := []
  entry := 0
  exit := 2
  locations := [
    ⟨.entry [] [.var n], [⟨1, .assume (.binary .gt (.var n) (.int 0))⟩]⟩,
    ⟨.plain, [⟨2, .call [] "leaf" [n₀]⟩]⟩,
    ⟨.exit [], []⟩]

def program : Program := ⟨[], [leaf, walk]⟩

/-- Compares `n - 1` with `n`. -/
def condition : Expr :=
  .implies (.and .tt (.binary .ge (.var n) (.int 0))) (.implies (.binary .gt (.var n) (.int 0))
    (.and (.binary .lt (.binary .sub (.var n) (.int 1)) (.var n))
    (.binary .ge (.binary .sub (.var n) (.int 1)) (.int 0))))

theorem condition_valid (I : Interp) : I.Valid condition := by
  intro σ hσ
  have hn := Datum.eq_int (hσ n (by decide))
  generalize (σ n.name).toInt = k at hn
  simp [condition, Interp.Holds, Expr.implies, Expr.and, BinOp.value, hn, Expr.tt]
  omega

def state : State := fun x => if x = "n" then .int 1 else .int 5

theorem state_fits : state.Fits walk.vars := by
  have hvars : ∀ v ∈ walk.vars, v = n ∨ v = n₀ := by decide
  intro v hv
  rcases hvars v hv with rfl | rfl <;> rfl

/-- The path leads from 1 to 4. -/
theorem not_descends (I : Interp) {c : PathContext}
    (hstatements : c.statements = [.assume (.binary .gt (.var n) (.int 0))]) :
    ¬ c.Descends I [.var n] [.binary .sub (.var n₀) (.int 1)] state := by
  intro h
  have hrun : c.program.Executes I c.statements state (.done state) := by
    rw [hstatements]
    exact .step (.assume (by simp [Interp.Holds, BinOp.value, state, n])) (.nil _)
  have hbelow := (h _ hrun).2
  simp [Interp.values_eq_map, Datum.below_cons, BinOp.value, state, n, n₀] at hbelow

/-- The path to the call leads to a tuple that mentions the name under which `n` is kept. The
condition that is computed is valid, while the argument of the call can have any value. -/
theorem frozen_in_rankings :
    program.validate = .ok () ∧ walk ∈ program.procedures ∧ ∃ paths, walk.basicPaths = .ok paths ∧
      ⟨0, [(0, 1)]⟩ ∈ paths ∧ ∃ c d main N R frozen M M',
      PathContext.of program walk ⟨0, [(0, 1)]⟩ = .ok c ∧ c.demand = .ok d ∧
      Naming.Gives c.partialCorrectness c.names main N ∧ d.rankings = [R] ∧
      Naming.Gives (Naming.freshAll (PathContext.rankingVars c.rankings)) N frozen M ∧
      (∃ x ∈ Var.names frozen, ∃ a ∈ R, x ∈ a.freeNames) ∧
      Naming.Gives (c.termination c.precondition d.rankings) N [condition] M' ∧
      (∀ I : Interp, I.Valid condition) ∧
      ∀ I : Interp, ∃ σ : State, σ.Fits walk.vars ∧ ¬ c.Descends I c.rankings R σ := by
  refine ⟨rfl, List.mem_cons_of_mem _ List.mem_cons_self, _, rfl, by decide, _, _, _, _,
    [.binary .sub (.var n₀) (.int 1)], _, _, _, rfl, rfl, rfl, rfl, rfl,
    ⟨"n$0", by decide, _, List.mem_singleton_self _, by decide⟩, rfl, condition_valid, fun I => ?_⟩
  exact ⟨state, state_fits, not_descends I rfl⟩

end Alias

end Cutpoint
