import Cutpoint.Proofs.Path.Coverage

/-!
# Validation is exact

* `Procedure.Admissible f p`: what a procedure of a program has to be like, in terms of its graph
  and its calls only;
* `Procedure.HeadsCut`: every way from a location back to it passes a loop head. Ranks that fall
  along the edges give that (`Procedure.Ranks.headsCut`), and where it holds the check for cycles
  succeeds (`Procedure.HeadsCut.checkCycles`);
* `Procedure.Visiting f id path`: while the check visits `id`, the locations `path` lead to it one
  after the other, without a loop head;
* `Program.validate_eq_ok`: a program is accepted exactly if its procedures have different names and
  each is admissible.
-/

set_option autoImplicit false

namespace Cutpoint

theorem BasicPath.finish_mem_targets {id : Nat} {steps : List (Nat × Nat)} (hne : steps ≠ []) :
    finish ⟨id, steps⟩ ∈ steps.map Prod.snd := by
  rw [finish, List.getLast?_eq_some_getLast hne]
  exact List.mem_map_of_mem (List.getLast_mem hne)

namespace Procedure

/-! ## Cycles -/

def IsHead (f : Procedure) (id : Nat) : Prop := ∃ l, f.locations[id]? = some l ∧ l.isLoopHead = true

theorem isHead_iff {f : Procedure} {id : Nat} {l : Location} (hl : f.location id = .ok l) :
    f.IsHead id ↔ l.isLoopHead = true := by
  rw [IsHead, location_eq_ok.1 hl]
  exact ⟨fun ⟨m, hm, hhead⟩ => Option.some.inj hm ▸ hhead, fun hhead => ⟨l, rfl, hhead⟩⟩

/-- Every way of at least one edge from a location back to it passes a loop head. -/
def HeadsCut (f : Procedure) : Prop :=
  ∀ id steps, steps ≠ [] → f.Connects id steps → BasicPath.finish ⟨id, steps⟩ = id →
    ∃ j ∈ steps.map Prod.snd, f.IsHead j

/-- Without a loop head on the way, ranks fall. -/
theorem Ranks.lt_of_connects {f : Procedure} {rank : Nat → Nat} (hrank : f.Ranks rank) {id : Nat}
    {steps : List (Nat × Nat)} (hne : steps ≠ []) (h : f.Connects id steps)
    (hid : ¬ f.IsHead id) (hheads : ∀ j ∈ steps.map Prod.snd, ¬ f.IsHead j) :
    rank (BasicPath.finish ⟨id, steps⟩) < rank id := by
  induction steps generalizing id with
  | nil => exact absurd rfl hne
  | cons step steps ih =>
    obtain ⟨index, target⟩ := step
    obtain ⟨⟨es, e, hes, he, rfl⟩, hrest⟩ := h
    rw [List.map_cons, List.forall_mem_cons] at hheads
    have hstep : rank e.target < rank id := by
      obtain ⟨l, hl, -⟩ := edges_eq_ok.1 hes
      have hhead : l.isLoopHead = false :=
        Bool.eq_false_iff.2 fun hhead => hid ((isHead_iff hl).2 hhead)
      exact hrank.step id l es hl hhead hes e (List.mem_of_getElem? he)
    rw [BasicPath.finish_cons]
    by_cases hlast : steps = []
    · rw [hlast]
      exact hstep
    · exact (ih hlast hrest hheads.1 hheads.2).trans hstep

theorem Ranks.headsCut {f : Procedure} {rank : Nat → Nat} (hrank : f.Ranks rank) : f.HeadsCut := by
  intro id steps hne hconnects hfinish
  by_contra hnone
  have hheads : ∀ j ∈ steps.map Prod.snd, ¬ f.IsHead j := fun j hj hhead => hnone ⟨j, hj, hhead⟩
  -- the way ends where it starts, so that the start is one of its targets
  have hid : ¬ f.IsHead id := hheads id (hfinish ▸ BasicPath.finish_mem_targets hne)
  have hlt := hrank.lt_of_connects hne hconnects hid hheads
  rw [hfinish] at hlt
  exact Nat.lt_irrefl _ hlt

/-! ## The search for cycles -/

theorem Connects.append_one {f : Procedure} {id j : Nat} {steps : List (Nat × Nat)}
    (h : f.Connects id steps) (hleads : f.Leads (BasicPath.finish ⟨id, steps⟩) j) :
    ∃ index, f.Connects id (steps ++ [(index, j)]) := by
  induction steps generalizing id with
  | nil =>
    obtain ⟨es, hes, e, he, htarget⟩ := hleads
    obtain ⟨index, hindex⟩ := List.mem_iff_getElem?.1 he
    exact ⟨index, ⟨es, e, hes, hindex, htarget⟩, trivial⟩
  | cons step steps ih =>
    obtain ⟨i, target⟩ := step
    rw [BasicPath.finish_cons] at hleads
    obtain ⟨index, hindex⟩ := ih h.2 hleads
    exact ⟨index, h.1, hindex⟩

/-- A way between two locations that passes no loop head after its start. -/
def Evades (f : Procedure) (i j : Nat) (steps : List (Nat × Nat)) : Prop :=
  f.Connects i steps ∧ BasicPath.finish ⟨i, steps⟩ = j ∧ ∀ k ∈ steps.map Prod.snd, ¬ f.IsHead k

theorem Evades.append_one {f : Procedure} {i j k : Nat} {steps : List (Nat × Nat)}
    (h : f.Evades i j steps) (hleads : f.Leads j k) (hk : ¬ f.IsHead k) :
    ∃ index, f.Evades i k (steps ++ [(index, k)]) := by
  obtain ⟨hconnects, hfinish, hheads⟩ := h
  obtain ⟨index, hindex⟩ := hconnects.append_one (hfinish ▸ hleads)
  refine ⟨index, hindex, BasicPath.finish_append_one _ _ _ _, ?_⟩
  rw [List.map_append, List.forall_mem_append]
  exact ⟨hheads, by simpa using hk⟩

/-- The state of the check for cycles: the location `id` is visited, and the locations of `path`,
all different, led there. -/
structure Visiting (f : Procedure) (id : Nat) (path : List Nat) : Prop where
  lt : ∀ j ∈ id :: path, j < f.locations.length
  nodup : (id :: path).Nodup
  evades : ∀ j ∈ id :: path, ∃ steps, f.Evades j id steps

namespace Visiting
variable {f : Procedure} {id target : Nat} {path : List Nat}

theorem start (h : id < f.locations.length) : f.Visiting id [] :=
  ⟨by simpa using h, List.nodup_singleton id,
    fun j hj => List.mem_singleton.1 hj ▸ ⟨[], trivial, rfl, by simp⟩⟩

theorem length_lt (h : f.Visiting id path) : path.length < f.locations.length := by
  have hsub : id :: path ⊆ List.range f.locations.length := fun j hj => List.mem_range.2 (h.lt j hj)
  have hle := (h.nodup.subperm hsub).length_le
  rw [List.length_cons, List.length_range] at hle
  exact hle

variable (h : f.Visiting id path) (hleads : f.Leads id target) (hhead : ¬ f.IsHead target)
include h hleads hhead

/-- An edge back to a location that is being visited would close a cycle without a loop head. -/
theorem not_mem (hcut : f.HeadsCut) : target ∉ id :: path := by
  intro hmem
  obtain ⟨steps, hsteps⟩ := h.evades target hmem
  obtain ⟨index, hconnects, hfinish, hheads⟩ := hsteps.append_one hleads hhead
  obtain ⟨j, hj, hjhead⟩ :=
    hcut target _ (List.append_ne_nil_of_right_ne_nil _ (List.cons_ne_nil _ _)) hconnects hfinish
  exact hheads j hj hjhead

theorem next (hlt : target < f.locations.length) (hnot : target ∉ id :: path) :
    f.Visiting target (id :: path) := by
  refine ⟨List.forall_mem_cons.2 ⟨hlt, h.lt⟩, List.nodup_cons.2 ⟨hnot, h.nodup⟩,
    List.forall_mem_cons.2 ⟨⟨[], trivial, rfl, by simp⟩, fun j hj => ?_⟩⟩
  obtain ⟨steps, hsteps⟩ := h.evades j hj
  obtain ⟨index, hindex⟩ := hsteps.append_one hleads hhead
  exact ⟨_, hindex⟩

end Visiting

theorem exists_visitTargets {f : Procedure} {visit : List Nat → Nat → Except Fault (List Nat)}
    {path : List Nat} {es : List Edge} (h : ∀ e ∈ es, e.target < f.locations.length ∧
      (¬ f.IsHead e.target → e.target ∉ path ∧ ∀ done, ∃ done', visit done e.target = .ok done'))
    (done : List Nat) : ∃ done', f.visitTargets visit path es done = .ok done' := by
  induction es generalizing done with
  | nil => exact ⟨done, rfl⟩
  | cons e es ih =>
    rw [List.forall_mem_cons] at h
    obtain ⟨⟨hlt, hother⟩, hrest⟩ := h
    obtain ⟨l, hl⟩ := exists_location hlt
    simp only [visitTargets, bind_eq_ok, hl, Except.ok.injEq, exists_eq_left']
    by_cases hhead : l.isLoopHead = true
    · rw [if_pos hhead]
      exact ih hrest done
    · obtain ⟨hpath, hvisit⟩ := hother ((isHead_iff hl).not.2 hhead)
      rw [if_neg hhead, if_neg (by simpa using hpath)]
      split
      · exact ih hrest done
      · obtain ⟨mid, hmid⟩ := hvisit done
        obtain ⟨done', hdone'⟩ := ih hrest mid
        exact ⟨done', bind_eq_ok.2 ⟨mid, hmid, hdone'⟩⟩

section Cut
variable {f : Procedure} (hlt : ∀ i j, f.Leads i j → j < f.locations.length) (hcut : f.HeadsCut)
include hlt hcut

/-- A visit does not run out of fuel, since the locations being visited are different, and it closes
no cycle. -/
theorem HeadsCut.exists_visit {fuel id : Nat} {path : List Nat} (h : f.Visiting id path)
    (hfuel : f.locations.length ≤ fuel + path.length) (done : List Nat) :
    ∃ done', f.visit fuel path done id = .ok done' := by
  induction fuel generalizing id path done with
  | zero =>
    have := h.length_lt
    omega
  | succ fuel ih =>
    obtain ⟨l, hl⟩ := exists_location (h.lt id List.mem_cons_self)
    obtain ⟨es, hes⟩ : ∃ es, f.edges id = .ok es := ⟨_, edges_eq_ok.2 ⟨l, hl, rfl⟩⟩
    have htargets : ∀ e ∈ es, e.target < f.locations.length ∧ (¬ f.IsHead e.target →
        e.target ∉ id :: path ∧
          ∀ done, ∃ done', f.visit fuel (id :: path) done e.target = .ok done') := by
      intro e he
      have hleads : f.Leads id e.target := ⟨es, hes, e, he, rfl⟩
      refine ⟨hlt _ _ hleads, fun hhead => ?_⟩
      have hnot := h.not_mem hleads hhead hcut
      refine ⟨hnot, ih (h.next hleads hhead (hlt _ _ hleads) hnot) ?_⟩
      rw [List.length_cons]
      omega
    obtain ⟨done', hdone'⟩ := exists_visitTargets htargets done
    exact ⟨id :: done', bind_eq_ok.2 ⟨es, hes, bind_eq_ok.2 ⟨done', hdone', rfl⟩⟩⟩

theorem HeadsCut.visitRoots {ids : List Nat} (hids : ∀ id ∈ ids, id < f.locations.length)
    (done : List Nat) : f.visitRoots ids done = .ok () := by
  induction ids generalizing done with
  | nil => rfl
  | cons id ids ih =>
    rw [List.forall_mem_cons] at hids
    obtain ⟨l, hl⟩ := exists_location hids.1
    rw [Procedure.visitRoots, bind_eq_ok]
    refine ⟨l, hl, ?_⟩
    split
    · exact ih hids.2 done
    · obtain ⟨done', hdone'⟩ := hcut.exists_visit hlt (.start hids.1) (Nat.le_add_right _ _) done
      exact bind_eq_ok.2 ⟨done', hdone', ih hids.2 done'⟩

theorem HeadsCut.checkCycles : f.checkCycles = .ok () :=
  hcut.visitRoots hlt (fun _ hid => List.mem_range.1 hid) []

end Cut

/-! ## Procedures -/

/-- What a procedure of a program has to be like. -/
structure Admissible (f : Procedure) (p : Program) : Prop where
  entry_lt : f.entry < f.locations.length
  exit_lt : f.exit < f.locations.length
  isEntry_iff : ∀ id l, f.locations[id]? = some l → (l.isEntry = true ↔ id = f.entry)
  isExit_iff : ∀ id l, f.locations[id]? = some l → (l.isExit = true ↔ id = f.exit)
  target_lt : ∀ l ∈ f.locations, ∀ e ∈ l.edges, e.target < f.locations.length
  calls : ∀ l ∈ f.locations, ∀ e ∈ l.edges, ∀ lhs name args, e.statement = .call lhs name args →
    ∃ g ∈ p.procedures, g.name = name ∧ args.length = g.parameters.length ∧
    (lhs = [] ∨ lhs.length = g.results.length)
  headsCut : f.HeadsCut

end Procedure

theorem Program.procedure_eq_ok {p : Program}
    (hnames : (p.procedures.map Procedure.name).Nodup) {name : String}
    {g : Procedure} : p.procedure name = .ok g ↔ g ∈ p.procedures ∧ g.name = name := by
  constructor
  · intro h
    refine ⟨mem_of_procedure h, ?_⟩
    unfold procedure at h
    split at h
    · next f hf =>
      cases h
      simpa using List.find?_some hf
    · cases h
  · rintro ⟨hg, rfl⟩
    unfold procedure
    split
    · next f hf =>
      have hname : f.name = g.name := by simpa using List.find?_some hf
      rw [List.inj_on_of_nodup_map hnames (List.mem_of_find?_eq_some hf) hg hname]
    · next hnone => exact absurd (List.find?_eq_none.1 hnone g hg) (by simp)

namespace Procedure
variable {f : Procedure} {p : Program}

theorem location_of_mem {l : Location} (hl : l ∈ f.locations) : ∃ id, f.location id = .ok l := by
  obtain ⟨id, hid⟩ := List.mem_iff_getElem?.1 hl
  exact ⟨id, location_eq_ok.2 hid⟩

theorem WellFormed.admissible (hnames : (p.procedures.map Procedure.name).Nodup)
    (h : f.WellFormed p) : f.Admissible p := by
  obtain ⟨entry, hentry, hisEntry⟩ := h.entry
  obtain ⟨exit, hexit, hisExit⟩ := h.exit
  obtain ⟨rank, hrank⟩ := h.exists_ranks
  refine ⟨location_lt hentry, location_lt hexit,
    fun id l hl => ⟨h.entry_unique id l (location_eq_ok.2 hl), ?_⟩,
    fun id l hl => ⟨h.exit_unique id l (location_eq_ok.2 hl), ?_⟩, fun l hl e he => ?_,
    fun l hl e he lhs name args hs => ?_, hrank.headsCut⟩
  · rintro rfl
    rw [location_eq_ok.1 hentry] at hl
    exact Option.some.inj hl ▸ hisEntry
  · rintro rfl
    rw [location_eq_ok.1 hexit] at hl
    exact Option.some.inj hl ▸ hisExit
  · obtain ⟨id, hid⟩ := location_of_mem hl
    obtain ⟨m, hm⟩ := (Program.checkEdge_eq_ok.1 (h.edges id l hid e he)).1
    exact location_lt hm
  · obtain ⟨id, hid⟩ := location_of_mem hl
    obtain ⟨g, hg, hcheck⟩ := h.call hid he hs
    obtain ⟨hmem, hname⟩ := (Program.procedure_eq_ok hnames).1 hg
    exact ⟨g, hmem, hname, checkCall_eq_ok.1 hcheck⟩

/-- Edges lead to locations if all targets are there and the exit is, which may be the target of the
edge that an entry gets. -/
theorem lt_of_leads (hexit : f.exit < f.locations.length)
    (htarget : ∀ l ∈ f.locations, ∀ e ∈ l.edges, e.target < f.locations.length) {i j : Nat}
    (hleads : f.Leads i j) : j < f.locations.length := by
  obtain ⟨es, hes, e, he, rfl⟩ := hleads
  obtain ⟨l, hl, rfl⟩ := edges_eq_ok.1 hes
  split at he
  · rw [List.mem_singleton.1 he]
    exact target_defaultEdge_lt hexit
  · exact htarget l (List.mem_of_getElem? (location_eq_ok.1 hl)) e he

theorem Admissible.lt_of_leads (h : f.Admissible p) {i j : Nat} (hleads : f.Leads i j) :
    j < f.locations.length :=
  Procedure.lt_of_leads h.exit_lt h.target_lt hleads

theorem Admissible.wellFormed (hnames : (p.procedures.map Procedure.name).Nodup)
    (h : f.Admissible p) : f.WellFormed p := by
  obtain ⟨entry, hentry⟩ := exists_location h.entry_lt
  obtain ⟨exit, hexit⟩ := exists_location h.exit_lt
  refine ⟨⟨entry, hentry, (h.isEntry_iff _ _ (location_eq_ok.1 hentry)).2 rfl⟩,
    ⟨exit, hexit, (h.isExit_iff _ _ (location_eq_ok.1 hexit)).2 rfl⟩,
    fun id l hl => (h.isEntry_iff id l (location_eq_ok.1 hl)).1, fun id l hl =>
    (h.isExit_iff id l (location_eq_ok.1 hl)).1, fun id l hl e he => Program.checkEdge_eq_ok.2 ?_,
    h.headsCut.checkCycles fun _ _ => h.lt_of_leads⟩
  have hmem := List.mem_of_getElem? (location_eq_ok.1 hl)
  refine ⟨exists_location (h.target_lt l hmem e he), fun lhs name args hs => ?_⟩
  obtain ⟨g, hg, hname, hcall⟩ := h.calls l hmem e he lhs name args hs
  exact ⟨g, (Program.procedure_eq_ok hnames).2 ⟨hg, hname⟩, checkCall_eq_ok.2 hcall⟩

end Procedure

/-- **Validation accepts exactly the well-formed programs**: names of procedures differ; entry and
exit are there and are the only locations of their kinds; edges have targets; calls fit their
callees; and every cycle, also one that the entry does not lead to or that uses the edge which an
entry without edges gets, passes a loop head. -/
theorem Program.validate_eq_ok (p : Program) :
    p.validate = .ok () ↔
      (p.procedures.map Procedure.name).Nodup ∧ ∀ f ∈ p.procedures, f.Admissible p := by
  rw [validate, checkProcedures_eq_ok]
  constructor
  · rintro ⟨hnames, -, hwf⟩
    exact ⟨hnames, fun f hf => (hwf f hf).admissible hnames⟩
  · rintro ⟨hnames, hadmissible⟩
    exact ⟨hnames, by simp, fun f hf => (hadmissible f hf).wellFormed hnames⟩

/-- The only cycle is closed by the edge from the entry to the first location of the body. -/
example : (⟨[], [⟨"f", [], [], 0, 1,
    [⟨.entry [] [], []⟩, ⟨.exit [], []⟩, ⟨.plain, [⟨0, .assume .tt⟩]⟩]⟩]⟩ : Program).validate =
    .error (.malformed "f" (.uncutCycle 0)) := rfl

end Cutpoint
