import Cutpoint.Proofs.Condition.Lex
import Cutpoint.Proofs.Condition.Partial

/-!
# Termination of a path

`PathContext.decreaseConditionBy_gives`: the condition that a path leads from ranking functions to
others is valid exactly if every execution from a state where the former are not negative leads to
smaller values of the latter, none of which is negative.

The values at the start are kept under new names. An execution is the same whatever values these
names have (`PathContext.Within.executes_bind`) and does not change them, so that they can be
compared at the end.
-/

set_option autoImplicit false

namespace Cutpoint

namespace PathContext

/-! ## Variables that a path does not mention -/

section Elsewhere
variable {c : PathContext} {S vs : List Var} {I : Interp} {σ : State} (hc : c.Within S)
  (hvs : ∀ v ∈ S, v.name ∉ Var.names vs)
include hc hvs

/-- An execution is the same whatever values there are for variables that the path does not
mention. -/
theorem Within.executes_bind {ss : List Statement} (hss : ∀ s ∈ ss, s ∈ c.statements) {o : Outcome}
    (h : c.program.Executes I ss σ o) (ds : List Datum) :
    c.program.Executes I ss (σ.bind vs ds) (o.map fun τ => τ.bind vs ds) := by
  have hfree : ∀ s ∈ ss, ∀ v ∈ s.free, v.name ∉ Var.names vs := fun s hs v hv =>
    hvs v ((hc.statements s (hss s hs)).2 v hv)
  induction h with
  | nil σ => exact .nil _
  | step hs _ ih =>
    rw [List.forall_mem_cons] at hss hfree
    exact .step (hs.bind hfree.1 ds) (ih hss.2 hfree.2)
  | fail hs => exact .fail (hs.bind (List.forall_mem_cons.1 hfree).1 ds)
  | @call lhs args name g ss σ es o hg hes _ ih =>
    rw [List.forall_mem_cons] at hss hfree
    obtain ⟨g', hg', -, hcontract, -⟩ := hc.calls lhs name args hss.1
    obtain ⟨hprocedure, hcheck⟩ := callee_eq_ok.1 hg'
    rw [hg] at hprocedure
    cases hprocedure
    obtain ⟨htyped, cs, hcs, hholds⟩ := hes
    have hreturns : g.Returns I args (σ.bind vs ds) es := by
      refine ⟨htyped, cs, hcs, fun a ha => ?_⟩
      -- a variable of the contract is formal, or it is one of the scope
      have hget : (σ.bind vs ds).get args = σ.get args :=
        List.map_congr_left fun v hv =>
          NameMap.bind_of_not_mem (hfree.1 v (List.mem_append_right _ hv))
      have hlen : g.parameters.length ≤ (σ.get args).length := by
        rw [NameMap.get_length, (Procedure.checkCall_eq_ok.1 hcheck).1]
      refine (Interp.holds_congr fun v hv => ?_).2 (hholds a ha)
      rw [hget]
      refine NameMap.bind_congr (Nat.le_of_eq htyped.length.symm) fun hr =>
        NameMap.bind_congr hlen fun hp =>
        NameMap.bind_of_not_mem ?_
      rcases (hcontract.exit cs hcs a ha).2 v hv with hb | ⟨hS, -⟩
      · rcases List.mem_append.1 hb with hb | hb
        · exact absurd (name_mem_names hb) hp
        · exact absurd (name_mem_names hb) hr
      · exact hvs v hS
    have hapart : ∀ x ∈ Var.names lhs, x ∉ Var.names vs := by
      intro x hx
      obtain ⟨v, hv, rfl⟩ := mem_names.1 hx
      exact hfree.1 v (List.mem_append_left _ hv)
    refine .call hg hreturns ?_
    rw [NameMap.bind_comm _ hapart]
    exact ih hss.2 hfree.2

/-- Values for variables that a path does not mention are found unchanged at its end. -/
theorem Within.executes_bind_iff {ds : List Datum} (hlen : vs.length ≤ ds.length)
    {P : State → Prop} :
    (∀ o, c.program.Executes I c.statements (σ.bind vs ds) o → o.Meets P) ↔
      ∀ o, c.program.Executes I c.statements σ o → o.Meets fun τ => P (τ.bind vs ds) := by
  constructor
  · intro h o ho
    have := h _ (hc.executes_bind hvs (fun _ hs => hs) ho ds)
    cases o with
    | done τ => exact this
    | failed => exact this
  · intro h o ho
    have hback : (σ.bind vs ds).bind vs (σ.get vs) = σ := by
      funext x
      by_cases hx : x ∈ Var.names vs
      · rw [NameMap.bind_get_of_mem hx]
      · rw [NameMap.bind_of_not_mem hx, NameMap.bind_of_not_mem hx]
    have := h _ (hback ▸ hc.executes_bind hvs (fun _ hs => hs) ho (σ.get vs))
    cases o with
    | failed => exact this
    | done τ =>
      have hkept : (τ.bind vs (σ.get vs)).bind vs ds = τ := by
        funext x
        by_cases hx : x ∈ Var.names vs
        · rw [NameMap.bind_congr (τ := σ) hlen fun hn => absurd hx hn]
          refine (ho.unchanged fun s hs hn => ?_).symm
          obtain ⟨v, hv, rfl⟩ := mem_names.1 hn
          exact hvs v ((hc.statements s hs).2 v (Statement.mem_free_of_mem_targets hv)) hx
        · rw [NameMap.bind_of_not_mem hx, NameMap.bind_of_not_mem hx]
      change P ((τ.bind vs (σ.get vs)).bind vs ds) at this
      rwa [hkept] at this

end Elsewhere

/-! ## The condition -/

/-- From the state, every execution of the path ends without a failed assertion, where no value of
`exit` is negative and they are below those that `entry` had at the start. -/
def Descends (c : PathContext) (I : Interp) (entry exit : List Expr) (σ : State) : Prop :=
  ∀ o, c.program.Executes I c.statements σ o → o.Meets fun τ =>
    Datum.NonNegative (I.values τ exit) ∧ Datum.Below (I.values τ exit) (I.values σ entry)

theorem mem_rankingVars {entry : List Expr} {v : Var} :
    v ∈ rankingVars entry ↔ ∃ e ∈ entry, v ∈ e.free := by
  rw [rankingVars, mem_distinct, List.mem_flatMap]

/-- The names in use hold those of the path, of the precondition and of the ranking functions at the
start. Names of the scope that they do not hold are unlike new ones. -/
structure Reserved (c : PathContext) (S : List Var) (pre : Expr) (entry : List Expr)
    (N : Names) : Prop where
  statements : ∀ s ∈ c.statements, ∀ x ∈ s.names, x ∈ N
  pre : ∀ v ∈ pre.free, v.name ∈ N
  entry : ∀ e ∈ entry, ∀ v ∈ e.free, v.name ∈ N
  scope : ∀ v ∈ S, v.name ∈ N ∨ '$' ∉ v.name.toList

theorem Reserved.mono {c : PathContext} {S : List Var} {pre : Expr} {entry : List Expr}
    {N M : Names} (h : c.Reserved S pre entry N) (hNM : ∀ x ∈ N, x ∈ M) :
    c.Reserved S pre entry M :=
  ⟨fun s hs x hx => hNM x (h.statements s hs x hx), fun v hv => hNM _ (h.pre v hv),
    fun e he v hv => hNM _ (h.entry e he v hv), fun v hv => (h.scope v hv).imp_left (hNM _)⟩

/-- New names are no names of the scope. -/
theorem Reserved.apart {c : PathContext} {S : List Var} {pre : Expr} {entry : List Expr}
    {N N' : Names} {ws : List Var} (h : c.Reserved S pre entry N) (hnew : Naming.New ws N N') :
    ∀ v ∈ S, v.name ∉ Var.names ws := fun v hv hw =>
  (h.scope v hv).elim (hnew.not_mem _ hw) fun hd => hd (hnew.dollar _ hw)

theorem scopedIn_lexParts {before : List Expr} {ps : List (Expr × Expr)}
    {S : List Var} (hbefore : ∀ b ∈ before, b.ScopedIn [] S)
    (hps : ∀ q ∈ ps, q.1.ScopedIn [] S ∧ q.2.ScopedIn [] S) :
    ∀ e ∈ lexParts before ps, e.ScopedIn [] S := by
  induction ps generalizing before with
  | nil => simp [lexParts]
  | cons q ps ih =>
    rw [List.forall_mem_cons] at hps
    rw [lexParts, List.forall_mem_cons]
    refine ⟨.conj (List.forall_mem_cons.2 ⟨hps.1.1.binary _ hps.1.2, hbefore⟩), ih ?_ hps.2⟩
    exact List.forall_mem_append.2 ⟨hbefore, by simpa using hps.1.1.binary .eq hps.1.2⟩

theorem scopedIn_nonNegative {es : List Expr} {S : List Var} (h : ∀ e ∈ es, e.ScopedIn [] S) :
    (nonNegative es).ScopedIn [] S :=
  .conj (List.forall_mem_map.2 fun e he =>
    (h e he).binary _ ⟨trivial, fun _ hv => absurd hv (Expr.mem_free_int 0)⟩)

theorem scopedIn_descent {exit start : List Expr} {S : List Var}
    (hexit : ∀ e ∈ exit, e.ScopedIn [] S) (hstart : ∀ e ∈ start, e.ScopedIn [] S) :
    (Expr.and (lexDecrease exit start) (nonNegative exit)).ScopedIn [] S :=
  .binary _ (.disj (scopedIn_lexParts (by simp) fun _ hq =>
    ⟨hexit _ (List.of_mem_zip hq).1, hstart _ (List.of_mem_zip hq).2⟩))
    (scopedIn_nonNegative hexit)

theorem mem_free_nonNegative {es : List Expr} {v : Var} :
    v ∈ (nonNegative es).free ↔ ∃ e ∈ es, v ∈ e.free := by
  simp [nonNegative]

section Freeze
variable {S frozen : List Var} {entry : List Expr} (hentry : ∀ e ∈ entry, e.ScopedIn [] S)
  (hS : OneType S) (hlen : frozen.length = (rankingVars entry).length)
include hentry hS hlen

theorem freeze_renames :
    ∀ e ∈ entry, ∀ v ∈ e.free, (Subst.ofRenaming ((rankingVars entry).zip frozen)).Renames
      [] [] (rankingVars entry) frozen v := by
  intro e he v hv
  refine Subst.ofRenaming_renames hlen fun u hu hname => ?_
  obtain ⟨e', he', hu⟩ := mem_rankingVars.1 hu
  exact hS u ((Expr.scopedIn_nil.1 (hentry e' he')).2 u hu) v
    ((Expr.scopedIn_nil.1 (hentry e he)).2 v hv) hname

theorem scopedIn_freeze :
    ∀ e ∈ entry.map (Expr.subst (.ofRenaming ((rankingVars entry).zip frozen))),
    e.ScopedIn [] (S ++ frozen) := by
  refine List.forall_mem_map.2 fun e he => Expr.scopedIn_nil.2 ⟨?_, fun v hv => ?_⟩
  · exact (hentry e he).1.subst_renames (freeze_renames hentry hS hlen e he) (Nat.le_refl _)
      (Nat.le_of_eq hlen.symm)
  · rcases Expr.mem_free_subst_renames (hentry e he).1 (freeze_renames hentry hS hlen e he)
      (Nat.le_refl _) (Nat.le_of_eq hlen.symm) hv with h | h | ⟨h, -⟩
    · exact absurd h List.not_mem_nil
    · exact List.mem_append_right _ h
    · exact List.mem_append_left _ ((Expr.scopedIn_nil.1 (hentry e he)).2 v h)

/-- Where the new names have the values that the variables have in `σ`, the frozen ranking functions
have their values in `σ`. -/
theorem values_freeze (hnodup : (Var.names frozen).Nodup) (I : Interp) (σ τ : State) :
    I.values (τ.bind frozen (σ.get (rankingVars entry))) (entry.map
      (Expr.subst (.ofRenaming ((rankingVars entry).zip frozen)))) = I.values σ entry := by
  rw [Interp.values_eq_map, Interp.values_eq_map, List.map_map]
  refine List.map_congr_left fun e he => ?_
  rw [Function.comp, I.value_subst_renames (hentry e he).1 (freeze_renames hentry hS hlen e he),
    NameMap.bind_nil, NameMap.get_bind hnodup (by rw [NameMap.get_length, hlen])]
  exact I.value_congr fun v hv =>
    NameMap.bind_get_of_mem (name_mem_names (mem_rankingVars.2 ⟨e, he, hv⟩))

end Freeze

/-- What holds with variables for the new names holds where the new names have the values of these
variables, also with values for names that are neither. -/
theorem holds_thaw {frozen vs ws : List Var} {w : Expr} (hw : w.Scoped)
    (hthaw : ∀ v ∈ w.free, (Subst.ofRenaming (frozen.zip vs)).Renames [] [] frozen vs v)
    (hvs : ∀ v ∈ vs, v.name ∉ Var.names ws) (hws : ∀ x ∈ Var.names ws, x ∉ Var.names frozen)
    (I : Interp) (σ : State) (ds : List Datum) :
    I.Holds (σ.bind ws ds) (w.subst (.ofRenaming (frozen.zip vs))) ↔
      I.Holds ((σ.bind frozen (σ.get vs)).bind ws ds) w := by
  have hget : (σ.bind ws ds).get vs = σ.get vs :=
    List.map_congr_left fun v hv => NameMap.bind_of_not_mem (hvs v hv)
  rw [Interp.holds_subst_renames hw hthaw, NameMap.bind_nil, hget, NameMap.bind_comm ds hws]

section Condition
variable {c : PathContext} {S : List Var} {pre : Expr} {entry exit : List Expr} {N : Names}
  (hc : c.Within S) (hpre : pre.ScopedIn [] S) (hentry : ∀ e ∈ entry, e.ScopedIn [] S)
  (hN : c.Reserved S pre entry N)
include hc hpre hentry hN

/-- The condition that a path leads from ranking functions to others is exact. -/
theorem decreaseConditionBy_gives (hexit : ∀ e ∈ exit, e.ScopedIn [] S)
    (hlen : exit.length = entry.length) :
    ∃ vc N', Naming.Gives (c.decreaseConditionBy inPlace pre entry exit) N vc N' ∧
      (∀ x ∈ N, x ∈ N') ∧ ∀ I : Interp, I.Valid vc ↔ ∀ σ : State, σ.Fits S → I.Holds σ pre →
        Datum.NonNegative (I.values σ entry) → c.Descends I entry exit σ := by
  obtain ⟨frozen, N₁, hfreeze, hnew, hty⟩ := Naming.freshAll_gives (rankingVars entry) N
  have hflen : frozen.length = (rankingVars entry).length := by simpa using congrArg List.length hty
  have hapart : ∀ v ∈ S, v.name ∉ Var.names frozen := hN.apart hnew
  have hS' : OneType (S ++ frozen) :=
    hc.oneType.append hnew.oneType fun v hv w hw h => hapart v hv (h ▸ name_mem_names hw)
  have hstart := scopedIn_freeze hentry hc.oneType hflen
  have hexit' : ∀ e ∈ exit, e.ScopedIn [] (S ++ frozen) :=
    fun e he => (hexit e he).mono fun _ => List.mem_append_left _
  obtain ⟨w, ws, N₂, hw, hnew', hwscoped, hwfree, hwholds⟩ := weakest_gives
    (hc.mono hS' fun _ => List.mem_append_left _) (scopedIn_descent hexit' hstart)
    (hN.mono hnew.grows).statements
  -- names of results are new
  have hws : ∀ x ∈ N, x ∉ Var.names ws := fun x hx hxw => hnew'.not_mem x hxw (hnew.grows x hx)
  have hwsfrozen : ∀ x ∈ Var.names ws, x ∉ Var.names frozen :=
    fun x hx hxf => hnew'.not_mem x hx (hnew.mem x hxf)
  have hvs : ∀ v ∈ rankingVars entry, v ∈ S ∧ v.name ∉ Var.names ws := by
    intro v hv
    obtain ⟨e, he, hv⟩ := mem_rankingVars.1 hv
    exact ⟨(Expr.scopedIn_nil.1 (hentry e he)).2 v hv, hws _ (hN.entry e he v hv)⟩
  have hthaw : ∀ v ∈ w.free, (Subst.ofRenaming (frozen.zip (rankingVars entry))).Renames [] []
      frozen (rankingVars entry) v := by
    refine fun v hv => Subst.ofRenaming_renames hflen.symm fun u hu hname => ?_
    rcases hwfree v hv with h | ⟨h, -⟩
    · exact absurd (hname ▸ name_mem_names hu) (hwsfrozen _ (name_mem_names h))
    · exact hS' u (List.mem_append_right _ hu) v h hname
  refine ⟨_, N₂, hfreeze.bind ((Naming.gives_ofExcept rfl _).bind (hw.bind rfl)),
    fun x hx => hnew'.grows x (hnew.grows x hx), fun I => ?_⟩
  rw [Interp.valid_iff hc.oneType hnew'.nodup]
  · refine forall_congr' fun σ => imp_congr_right fun _ => ?_
    have hpremise : ∀ ds, I.Holds (σ.bind ws ds) (.and pre (nonNegative entry)) ↔
        I.Holds σ pre ∧ Datum.NonNegative (I.values σ entry) := by
      intro ds
      rw [Interp.holds_and, Interp.holds_nonNegative,
        Interp.holds_bind ds fun v hv => hws _ (hN.pre v hv),
        Interp.values_bind ds fun e he v hv => hws _ (hN.entry e he v hv)]
    have hthawed := holds_thaw hwscoped hthaw (fun v hv => (hvs v hv).2) hwsfrozen I σ
    have hdescends : (∀ ds, Var.Typed ws ds →
        I.Holds ((σ.bind frozen (σ.get (rankingVars entry))).bind ws ds) w) ↔
        c.Descends I entry exit σ := by
      rw [hwholds, hc.executes_bind_iff hapart (by rw [NameMap.get_length, hflen]), Descends]
      refine forall_congr' fun o => imp_congr_right fun _ => Outcome.meets_congr fun τ => ?_
      rw [Interp.holds_and, Interp.holds_lexDecrease (by rw [List.length_map, hlen]),
        Interp.holds_nonNegative,
        values_freeze hentry hc.oneType hflen hnew.nodup, Interp.values_bind _ fun e he v hv =>
          hapart v ((Expr.scopedIn_nil.1 (hexit e he)).2 v hv), and_comm]
    simp only [Interp.holds_implies, hpremise, hthawed, ← hdescends]
    exact ⟨fun h h₁ h₂ ds hds => h ds hds ⟨h₁, h₂⟩, fun h ds hds h' => h h'.1 h'.2 ds hds⟩
  · intro v hv
    rcases (Expr.mem_free_binary _ _ _).1 hv with hv | hv
    · rcases (Expr.mem_free_binary _ _ _).1 hv with hv | hv
      · exact Or.inr ⟨(Expr.scopedIn_nil.1 hpre).2 v hv, hws _ (hN.pre v hv)⟩
      · exact Or.inr (hvs v (mem_rankingVars.2 (mem_free_nonNegative.1 hv)))
    · rcases Expr.mem_free_subst_renames hwscoped hthaw (Nat.le_refl _) (Nat.le_of_eq hflen) hv with
        h | h | ⟨h, -, hf⟩
      · exact absurd h List.not_mem_nil
      · exact Or.inr (hvs v h)
      · refine (hwfree v h).imp_right (And.imp_left fun h => ?_)
        exact (List.mem_append.1 h).resolve_right fun h => hf (name_mem_names h)

/-- A condition is computed for every tuple of ranking functions that is not empty, and it is
exact. -/
theorem decreaseConditions_gives {exits : List (List Expr)}
    (hexits : ∀ R ∈ exits, ∀ e ∈ R, e.ScopedIn [] S)
    (hlen : ∀ R ∈ exits, R ≠ [] → R.length = entry.length) :
    ∃ vcs N', Naming.Gives (c.decreaseConditions pre entry exits) N vcs N' ∧
      List.Forall₂ (fun R vc => ∀ I : Interp, I.Valid vc ↔ ∀ σ : State, σ.Fits S → I.Holds σ pre →
        Datum.NonNegative (I.values σ entry) → c.Descends I entry R σ)
          (exits.filter (! ·.isEmpty)) vcs := by
  induction exits generalizing N with
  | nil => exact ⟨[], N, rfl, .nil⟩
  | cons R exits ih =>
    rw [List.forall_mem_cons] at hexits hlen
    by_cases hR : R.isEmpty = true
    · obtain ⟨vcs, N', hgives, hvcs⟩ := ih hN hexits.2 hlen.2
      refine ⟨vcs, N', ?_, ?_⟩
      · rw [decreaseConditions, decreaseConditionsBy, if_pos hR]
        exact hgives
      · rw [List.filter_cons_of_neg (by simp [hR])]
        exact hvcs
    · have hRlen := hlen.1 (by simpa using hR)
      obtain ⟨vc, N₁, hvc, hgrows, hvalid⟩ :=
        decreaseConditionBy_gives hc hpre hentry hN hexits.1 hRlen
      obtain ⟨vcs, N', hgives, hvcs⟩ := ih (hN.mono hgrows) hexits.2 hlen.2
      refine ⟨vc :: vcs, N', ?_, ?_⟩
      · rw [decreaseConditions, decreaseConditionsBy, if_neg hR, if_neg (not_not.2 hRlen)]
        exact hvc.bind (hgives.bind rfl)
      · rw [List.filter_cons_of_pos (by simp [hR])]
        exact .cons hvalid hvcs

end Condition

/-- No condition is computed for a tuple of another length. -/
theorem length_of_decreaseConditions {c : PathContext} {pre : Expr} {entry : List Expr}
    {exits : List (List Expr)} {N N' : Names} {vcs : List Expr}
    (h : Naming.Gives (c.decreaseConditions pre entry exits) N vcs N') :
    ∀ R ∈ exits, R ≠ [] → R.length = entry.length := by
  induction exits generalizing N N' vcs with
  | nil => simp
  | cons R exits ih =>
    rw [decreaseConditions, decreaseConditionsBy] at h
    split at h
    · next hempty =>
      have hR := List.isEmpty_iff.1 hempty
      exact List.forall_mem_cons.2 ⟨fun hne => absurd hR hne, ih h⟩
    · split at h
      · cases h
      · next hlen =>
        obtain ⟨vc, N₁, -, h⟩ := h.of_bind
        obtain ⟨rest, N₂, hrest, -⟩ := h.of_bind
        exact List.forall_mem_cons.2 ⟨fun _ => not_not.1 hlen, ih hrest⟩

/-- Where each name has one sort in the whole program, the ranking functions that a path leads to
are formulas over its variables. -/
theorem scopedIn_rankings {c : PathContext} {p : Program} {f : Procedure} {path : BasicPath}
    (hc : c.IsOf p f path) (hf : f ∈ p.procedures) (hone : OneType p.vars) {R : List Expr}
    (hR : (c.last.isLoopHead = true ∧ R = c.last.rankings) ∨ ∃ g args ranks, c.Calls c.last.edges g
      args ∧ g.entryRankings = .ok ranks ∧ R = ranks.map (Expr.subst (g.binding args))) :
    ∀ e ∈ R, e.ScopedIn [] p.vars := by
  have hsub : ∀ {g : Procedure}, g ∈ p.procedures → ∀ v ∈ g.vars, v ∈ p.vars :=
    fun hg v hv => List.mem_flatMap.2 ⟨_, hg, hv⟩
  rcases hR with ⟨-, rfl⟩ | ⟨g, args, ranks, ⟨e, he, lhs, name, hs, hcallee⟩, hranks, rfl⟩
  · exact fun e he => hone.scopedIn fun v hv =>
      hsub hf v (Procedure.mem_vars_of_mem_rankings hc.last he hv)
  · rw [callee_eq_ok, hc.program, hc.procedure] at hcallee
    have hg := Program.mem_of_procedure hcallee.1
    obtain ⟨l, hl, h⟩ := bind_eq_ok.1 hranks
    cases h
    have hformal : ∀ v ∈ g.parameters, v ∈ p.vars := fun v hv =>
      hsub hg v (List.mem_append_left _ (List.mem_append_left _ hv))
    refine List.forall_mem_map.2 fun a ha => Procedure.scoped_binding (hone.mono hformal)
      (Procedure.checkCall_eq_ok.1 hcallee.2).1 (fun v hv => hsub hf v
      (Procedure.mem_vars_of_edge hc.last he ?_)) (hone.scopedIn_formal hformal fun v hv =>
        hsub hg v (Procedure.mem_vars_of_mem_rankings hl ha hv))
    rw [hs]
    exact List.mem_append_right _ hv

/-- With all names of a path in use, those of its first location are. -/
theorem IsOf.reserved {c : PathContext} {p : Program} {f : Procedure} {path : BasicPath}
    (hc : c.IsOf p f path) {N : Names} (hN : ∀ x ∈ c.names, x ∈ N) {S : List Var}
    (hS : ∀ v ∈ S, v.name ∈ N ∨ '$' ∉ v.name.toList) :
    c.Reserved S c.precondition c.rankings N := by
  have hfirst : ∀ a ∈ c.first.annotations ++ c.first.rankings, ∀ v ∈ a.free, v.name ∈ N :=
      fun a ha v hv =>
    hN _ (hc.names_first _ (List.mem_flatMap.2 ⟨a, ha, Expr.mem_freeNames.2 ⟨v, hv, rfl⟩⟩))
  refine ⟨fun s hs x hx => hN x (hc.names_statements s hs x hx), fun v hv => ?_,
    fun e he v hv => ?_, hS⟩
  · obtain ⟨a, ha, hv⟩ := (Expr.mem_free_conj _).1 hv
    exact hfirst a (List.mem_append_left _ ha) v hv
  · exact hfirst e (List.mem_append_right _ he) v hv

end PathContext

/-- **The termination conditions of a path are exact**: for ranking functions at its start, and for
each non-empty tuple of ranking functions at its end, the condition is valid if and only if every
execution, from any state where the annotations hold and no ranking function is negative, ends
without a failed assertion, at values that are not negative and below those at the start. -/
theorem termination_valid_iff {p : Program} (hp : p.validate = .ok ()) (hone : OneType p.vars)
    (hcalls : ∀ f ∈ p.procedures, f.CallsFit p) (hdollar : ∀ v ∈ p.vars, '$' ∉ v.name.toList)
    {f : Procedure} (hf : f ∈ p.procedures) {paths : List BasicPath}
    (hpaths : f.basicPaths = .ok paths) {path : BasicPath} (hpath : path ∈ paths) :
    ∃ c d, PathContext.of p f path = .ok c ∧ c.demand = .ok d ∧ (c.rankings ≠ [] →
      (∀ R ∈ d.rankings, R ≠ [] → R.length = c.rankings.length) →
        ∀ N : Names, (∀ x ∈ c.names, x ∈ N) →
        ∃ vcs, ((c.termination c.precondition d.rankings).run N).1 = .ok vcs ∧
          List.Forall₂ (fun R vc => ∀ I : Interp, I.Valid vc ↔ ∀ σ : State, σ.Fits p.vars →
            (∀ a ∈ c.first.annotations, I.Holds σ a) → Datum.NonNegative (I.values σ c.rankings) →
              c.Descends I c.rankings R σ) (d.rankings.filter (! ·.isEmpty)) vcs) := by
  have hwf := Program.wellFormed_of_validate hp
  have hbasic := (Procedure.mem_basicPaths (hwf f hf) hpaths).1 hpath
  obtain ⟨c, hof⟩ := PathContext.exists_of (hwf f hf) hbasic
  have hc := PathContext.isOf_of hof
  have hscope := Procedure.inScope_vars hone hf (hcalls f hf)
  obtain ⟨d, hd, -, -, hrankings⟩ := PathContext.exists_demand hc hwf (hwf f hf) hscope
  refine ⟨c, d, hof, hd, fun hne hlen N hN => ?_⟩
  have hpre : c.precondition.ScopedIn [] p.vars := .conj fun a ha => hone.scopedIn fun v hv =>
    hscope.vars v (Procedure.mem_vars_of_mem_annotations hc.first ha hv)
  have hentry : ∀ e ∈ c.rankings, e.ScopedIn [] p.vars := fun e he => hone.scopedIn fun v hv =>
    hscope.vars v (Procedure.mem_vars_of_mem_rankings hc.first he hv)
  obtain ⟨vcs, N', hgives, hvcs⟩ := PathContext.decreaseConditions_gives (PathContext.within hc hwf
    (hwf f hf) hbasic hscope) hpre hentry (hc.reserved hN fun v hv => Or.inr (hdollar v hv))
    (fun R hR => PathContext.scopedIn_rankings hc hf hone ((hrankings R).1 hR)) hlen
  refine ⟨vcs, ?_, ?_⟩
  · rw [PathContext.termination, if_neg (by simpa using hne)]
    exact congrArg Prod.fst hgives
  · simpa only [PathContext.precondition, Interp.holds_conj] using hvcs

/-- The path around the loop has one condition, from the ranking function of the loop head to
itself. -/
theorem termination_valid_iff_count :
    ∃ c R vc, PathContext.of Counting.program Counting.count ⟨1, [(0, 2), (0, 1)]⟩ = .ok c ∧
      c.rankings = R ∧ R ≠ [] ∧ ((c.termination c.precondition [R]).run c.names).1 = .ok [vc] ∧
      ∀ I : Interp, I.Valid vc ↔
        ∀ σ : State, σ.Fits Counting.program.vars → (∀ a ∈ c.first.annotations, I.Holds σ a) →
          Datum.NonNegative (I.values σ R) → c.Descends I R R σ := by
  obtain ⟨c, d, hc, hd, h⟩ := termination_valid_iff (p := Counting.program) rfl (by decide)
    (by decide) (by decide) List.mem_cons_self (show Counting.count.basicPaths =
    .ok [⟨0, [(0, 1)]⟩, ⟨1, [(1, 3)]⟩, ⟨1, [(0, 2), (0, 1)]⟩] from rfl)
    (show (⟨1, [(0, 2), (0, 1)]⟩ : BasicPath) ∈ _ by decide)
  cases Except.ok.inj (hc.symm.trans (show _ = Except.ok _ from rfl))
  cases Except.ok.inj (hd.symm.trans (show _ = Except.ok _ from rfl))
  obtain ⟨vcs, hvcs, hall⟩ := h (List.cons_ne_nil _ _) (List.forall_mem_singleton.2 fun _ => rfl) _
    fun _ hx => hx
  obtain ⟨vc, _, hvalid, hnil, rfl⟩ := List.forall₂_cons_left_iff.1 hall
  cases List.forall₂_nil_left_iff.1 hnil
  exact ⟨_, _, vc, hc, rfl, List.cons_ne_nil _ _, hvcs, hvalid⟩

end Cutpoint
