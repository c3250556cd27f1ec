import Cutpoint.Flow.Validate

/-!
# What validation guarantees

`Procedure.WellFormed` says what a procedure of a validated program is like
(`Program.wellFormed_of_validate`).

That every cycle passes a loop head is known from a sorted list: `Procedure.Sorted` lists locations
so that every edge leads to a later one or to a loop head. Properties of locations can be shown
along that order (`Procedure.WellFormed.induct`).
-/

set_option autoImplicit false

namespace Cutpoint

/-! ## Results -/

theorem bind_eq_ok {ε α β : Type} {x : Except ε α} {f : α → Except ε β} {b : β} :
    (x >>= f) = .ok b ↔ ∃ a, x = .ok a ∧ f a = .ok b := by
  cases x with
  | error e => simp [bind, Except.bind]
  | ok a => simp [bind, Except.bind]

theorem exists_mapM_ok {ε α β : Type} {g : α → Except ε β} {xs : List α}
    (h : ∀ x ∈ xs, ∃ y, g x = .ok y) : ∃ ys, xs.mapM g = .ok ys := by
  induction xs with
  | nil => exact ⟨[], rfl⟩
  | cons x xs ih =>
    obtain ⟨y, hy⟩ := h x List.mem_cons_self
    obtain ⟨ys, hys⟩ := ih fun z hz => h z (List.mem_cons_of_mem _ hz)
    exact ⟨y :: ys, by rw [List.mapM_cons]; exact bind_eq_ok.2 ⟨y, hy, bind_eq_ok.2 ⟨ys, hys, rfl⟩⟩⟩

/-- A step that cannot fail leaves the failures of the one before it. -/
theorem bind_eq_error {ε α β : Type} {x : Except ε α} {f : α → Except ε β}
    (hf : ∀ a e, f a ≠ .error e) {e : ε} : (x >>= f) = .error e ↔ x = .error e := by
  cases x with
  | error e' => simp [bind, Except.bind]
  | ok a => exact iff_of_false (hf a e) nofun

theorem seq_eq_ok {α : Type} {x : Except Fault Unit} {f : Unit → Except Fault α} {b : α} :
    (x >>= f) = .ok b ↔ x = .ok () ∧ f () = .ok b := by
  rw [bind_eq_ok]
  exact ⟨fun ⟨_, h⟩ => h, fun h => ⟨(), h⟩⟩

/-- A check that stops with a fault in one case has not met that case. -/
theorem ite_throw_eq_ok {ε α β : Type} {c : Prop} [Decidable c] {e : ε} {k : β → Except ε α}
    {x : Except ε α} {b : α} : (if c then throw e >>= k else x) = .ok b ↔ ¬ c ∧ x = .ok b := by
  split
  · next h => simp [h, throw, throwThe, MonadExceptOf.throw, bind, Except.bind]
  · next h => simp [h]

namespace Procedure

theorem location_eq_ok {f : Procedure} {id : Nat} {l : Location} :
    f.location id = .ok l ↔ f.locations[id]? = some l := by
  unfold location
  cases f.locations[id]? <;> simp

theorem location_lt {f : Procedure} {id : Nat} {l : Location} (h : f.location id = .ok l) :
    id < f.locations.length := by
  obtain ⟨hlt, -⟩ := List.getElem?_eq_some_iff.1 (location_eq_ok.1 h)
  exact hlt

theorem exists_location {f : Procedure} {id : Nat} (h : id < f.locations.length) :
    ∃ l, f.location id = .ok l :=
  ⟨_, location_eq_ok.2 (List.getElem?_eq_getElem h)⟩

/-- The edges out of a location are its own, or at an entry without any the one to the body. -/
theorem edges_eq_ok {f : Procedure} {id : Nat} {es : List Edge} :
    f.edges id = .ok es ↔ ∃ l, f.location id = .ok l ∧
      es = if id = f.entry ∧ l.edges.isEmpty then [f.defaultEdge] else l.edges := by
  unfold edges
  rw [bind_eq_ok]
  refine exists_congr fun l => and_congr_right fun _ => ?_
  rw [eq_comm]
  simp [pure, Except.pure]

/-- The edge that an entry without edges gets leads to the first location of the body, or to the
exit. -/
theorem target_defaultEdge_lt {f : Procedure} (h : f.exit < f.locations.length) :
    f.defaultEdge.target < f.locations.length := by
  rw [defaultEdge]
  cases hbody : f.body.head? with
  | none => exact h
  | some id =>
    have hid : id ∈ f.body := List.mem_of_head? hbody
    rw [body, List.mem_filter, List.mem_range] at hid
    exact hid.1

theorem mem_edges_of_call {f : Procedure} {id : Nat} {es : List Edge} (hes : f.edges id = .ok es)
    {e : Edge} (he : e ∈ es) (hcall : e.statement.isCall = true) :
    ∃ l, f.location id = .ok l ∧ e ∈ l.edges := by
  obtain ⟨l, hl, rfl⟩ := edges_eq_ok.1 hes
  split at he
  · rw [List.mem_singleton.1 he] at hcall
    cases hcall
  · exact ⟨l, hl, he⟩

/-- A call passes the check if it has as many arguments as the callee has parameters, and as many
results as it returns or none. -/
theorem checkCall_eq_ok {f g : Procedure} {lhs args : List Var} :
    f.checkCall g lhs args = .ok () ↔
      args.length = g.parameters.length ∧ (lhs = [] ∨ lhs.length = g.results.length) := by
  unfold checkCall
  split
  · next h => simp [h]
  · next h =>
    split
    · next h' => simp [h']
    · next h' =>
      simp only [true_iff]
      exact ⟨by simpa using h, by grind⟩

end Procedure

namespace Program

theorem mem_of_procedure {p : Program} {name : String} {g : Procedure}
    (h : p.procedure name = .ok g) : g ∈ p.procedures := by
  unfold procedure at h
  split at h
  · next f hf =>
    cases h
    exact List.mem_of_find?_eq_some hf
  · cases h

/-! ## Edges and locations -/

theorem checkEdge_eq_ok {p : Program} {f : Procedure} {e : Edge} :
    p.checkEdge f e = .ok () ↔
      (∃ l, f.location e.target = .ok l) ∧ ∀ lhs name args, e.statement = .call lhs name args →
        ∃ g, p.procedure name = .ok g ∧ f.checkCall g lhs args = .ok () := by
  unfold checkEdge
  rw [bind_eq_ok]
  cases e.statement <;> simp [bind_eq_ok]

theorem checkEdges_eq_ok {p : Program} {f : Procedure} {es : List Edge} :
    p.checkEdges f es = .ok () ↔ ∀ e ∈ es, p.checkEdge f e = .ok () := by
  induction es with
  | nil => simp [checkEdges]
  | cons e es ih =>
    rw [checkEdges, seq_eq_ok, ih, List.forall_mem_cons]

theorem checkLocations_eq_ok {p : Program} {f : Procedure} {k : Nat} {ls : List Location} :
    p.checkLocations f k ls = .ok () ↔ ∀ i l, ls[i]? = some l → (l.isEntry = true →
      k + i = f.entry) ∧ (l.isExit = true → k + i = f.exit) ∧ p.checkEdges f l.edges = .ok () := by
  induction ls generalizing k with
  | nil => simp [checkLocations]
  | cons l ls ih =>
    rw [checkLocations, ite_throw_eq_ok]
    simp only [ite_throw_eq_ok, seq_eq_ok]
    rw [ih]
    constructor
    · rintro ⟨hentry, hexit, hedges, hrest⟩ i m hm
      cases i with
      | zero =>
        cases hm
        exact ⟨by grind, by grind, hedges⟩
      | succ i =>
        have := hrest i m hm
        rwa [Nat.add_assoc, Nat.add_comm 1 i] at this
    · intro h
      obtain ⟨hentry, hexit, hedges⟩ := h 0 l rfl
      refine ⟨by grind, by grind, hedges, fun i m hm => ?_⟩
      have := h (i + 1) m hm
      rwa [← Nat.add_assoc, Nat.add_right_comm] at this

end Program

/-! ## Cycles -/

namespace Procedure

/-- Every edge out of a location of the list leads to a later location of the list or to a loop
head. -/
def Sorted (f : Procedure) : List Nat → Prop
  | [] => True
  | id :: ids => f.Sorted ids ∧ ∃ es, f.edges id = .ok es ∧
      ∀ e ∈ es, ∃ l, f.location e.target = .ok l ∧ (l.isLoopHead = true ∨ e.target ∈ ids)

/-- After a visit of targets the list is still sorted, and holds all targets that are no loop
heads. -/
theorem visitTargets_sorted {f : Procedure} {visit : List Nat → Nat → Except Fault (List Nat)}
    {path : List Nat} (hvisit : ∀ done id done', f.Sorted done → visit done id = .ok done' →
      f.Sorted done' ∧ (∀ j ∈ done, j ∈ done') ∧ id ∈ done') {es : List Edge}
    {done done' : List Nat} (hdone : f.Sorted done)
    (h : f.visitTargets visit path es done = .ok done') :
    f.Sorted done' ∧ (∀ j ∈ done, j ∈ done') ∧
    ∀ e ∈ es, ∃ l, f.location e.target = .ok l ∧ (l.isLoopHead = true ∨ e.target ∈ done') := by
  induction es generalizing done with
  | nil =>
    cases h
    exact ⟨hdone, fun _ hj => hj, by simp⟩
  | cons e es ih =>
    rw [visitTargets, bind_eq_ok] at h
    obtain ⟨l, hl, h⟩ := h
    by_cases hhead : l.isLoopHead = true
    · rw [if_pos hhead] at h
      obtain ⟨h₁, h₂, h₃⟩ := ih hdone h
      exact ⟨h₁, h₂, List.forall_mem_cons.2 ⟨⟨l, hl, Or.inl hhead⟩, h₃⟩⟩
    · rw [if_neg hhead] at h
      by_cases hpath : path.contains e.target = true
      · rw [if_pos hpath] at h
        cases h
      · rw [if_neg hpath] at h
        by_cases hin : done.contains e.target = true
        · rw [if_pos hin] at h
          obtain ⟨h₁, h₂, h₃⟩ := ih hdone h
          exact ⟨h₁, h₂, List.forall_mem_cons.2 ⟨⟨l, hl, Or.inr (h₂ _ (by simpa using hin))⟩, h₃⟩⟩
        · rw [if_neg hin, bind_eq_ok] at h
          obtain ⟨mid, hmid, h⟩ := h
          obtain ⟨hsorted, hsub, hmem⟩ := hvisit done e.target mid hdone hmid
          obtain ⟨h₁, h₂, h₃⟩ := ih hsorted h
          exact ⟨h₁, fun j hj => h₂ j (hsub j hj),
            List.forall_mem_cons.2 ⟨⟨l, hl, Or.inr (h₂ _ hmem)⟩, h₃⟩⟩

theorem visit_sorted {f : Procedure} {fuel : Nat} {path done done' : List Nat} {id : Nat}
    (hdone : f.Sorted done) (h : f.visit fuel path done id = .ok done') :
    f.Sorted done' ∧ (∀ j ∈ done, j ∈ done') ∧ id ∈ done' := by
  induction fuel generalizing path done done' id with
  | zero => cases h
  | succ fuel ih =>
    rw [visit, bind_eq_ok] at h
    obtain ⟨es, hes, h⟩ := h
    rw [bind_eq_ok] at h
    obtain ⟨mid, hmid, h⟩ := h
    cases h
    obtain ⟨hsorted, hsub, htargets⟩ :=
      visitTargets_sorted (fun d i d' hd hi => ih hd hi) hdone hmid
    exact ⟨⟨hsorted, es, hes, htargets⟩, fun j hj => List.mem_cons_of_mem _ (hsub j hj),
      List.mem_cons_self⟩

theorem visitRoots_sorted {f : Procedure} {ids done : List Nat} (hdone : f.Sorted done)
    (h : f.visitRoots ids done = .ok ()) :
    ∃ done', f.Sorted done' ∧ (∀ j ∈ done, j ∈ done') ∧
      ∀ id ∈ ids, ∃ l, f.location id = .ok l ∧ (l.isLoopHead = true ∨ id ∈ done') := by
  induction ids generalizing done with
  | nil => exact ⟨done, hdone, fun _ hj => hj, by simp⟩
  | cons id ids ih =>
    rw [visitRoots, bind_eq_ok] at h
    obtain ⟨l, hl, h⟩ := h
    by_cases hskip : (l.isLoopHead || done.contains id) = true
    · rw [if_pos hskip] at h
      obtain ⟨done', h₁, h₂, h₃⟩ := ih hdone h
      refine ⟨done', h₁, h₂, List.forall_mem_cons.2 ⟨⟨l, hl, ?_⟩, h₃⟩⟩
      rw [Bool.or_eq_true] at hskip
      exact hskip.imp_right fun hin => h₂ _ (by simpa using hin)
    · rw [if_neg hskip, bind_eq_ok] at h
      obtain ⟨mid, hmid, h⟩ := h
      obtain ⟨hsorted, hsub, hmem⟩ := visit_sorted hdone hmid
      obtain ⟨done', h₁, h₂, h₃⟩ := ih hsorted h
      exact ⟨done', h₁, fun j hj => h₂ j (hsub j hj),
        List.forall_mem_cons.2 ⟨⟨l, hl, Or.inr (h₂ _ hmem)⟩, h₃⟩⟩

/-- Where every cycle passes a loop head, all other locations can be listed so that edges lead to
later ones or to loop heads. -/
theorem exists_sorted_of_checkCycles {f : Procedure} (h : f.checkCycles = .ok ()) :
    ∃ ids, f.Sorted ids ∧ ∀ id l, f.location id = .ok l → l.isLoopHead = true ∨ id ∈ ids := by
  obtain ⟨ids, hsorted, -, hall⟩ := visitRoots_sorted (show f.Sorted [] from trivial) h
  refine ⟨ids, hsorted, fun id l hl => ?_⟩
  obtain ⟨m, hm, hor⟩ := hall id (List.mem_range.2 (location_lt hl))
  rw [hl] at hm
  cases hm
  exact hor

/-- A procedure of a validated program. -/
structure WellFormed (f : Procedure) (p : Program) : Prop where
  entry : ∃ l, f.location f.entry = .ok l ∧ l.isEntry = true
  exit : ∃ l, f.location f.exit = .ok l ∧ l.isExit = true
  entry_unique : ∀ id l, f.location id = .ok l → l.isEntry = true → id = f.entry
  exit_unique : ∀ id l, f.location id = .ok l → l.isExit = true → id = f.exit
  edges : ∀ id l, f.location id = .ok l → ∀ e ∈ l.edges, p.checkEdge f e = .ok ()
  cycles : f.checkCycles = .ok ()

end Procedure

namespace Program
variable {p : Program}

theorem checkProcedure_eq_ok {f : Procedure} : p.checkProcedure f = .ok () ↔ f.WellFormed p := by
  constructor
  · intro h
    rw [checkProcedure, bind_eq_ok] at h
    obtain ⟨entry, hentry, h⟩ := h
    rw [ite_throw_eq_ok, bind_eq_ok] at h
    obtain ⟨hkind, exit, hexit, h⟩ := h
    rw [ite_throw_eq_ok, seq_eq_ok, checkLocations_eq_ok] at h
    obtain ⟨hkind', hlocations, hcycles⟩ := h
    have hat : ∀ id l, f.location id = .ok l → (l.isEntry = true → id = f.entry) ∧
        (l.isExit = true → id = f.exit) ∧ p.checkEdges f l.edges = .ok () := by
      intro id l hl
      simpa using hlocations id l (Procedure.location_eq_ok.1 hl)
    exact ⟨⟨entry, hentry, by simpa using hkind⟩, ⟨exit, hexit, by simpa using hkind'⟩,
      fun id l hl => (hat id l hl).1,
      fun id l hl => (hat id l hl).2.1,
      fun id l hl => checkEdges_eq_ok.1 (hat id l hl).2.2, hcycles⟩
  · intro h
    obtain ⟨entry, hentry, hkind⟩ := h.entry
    obtain ⟨exit, hexit, hkind'⟩ := h.exit
    rw [checkProcedure, bind_eq_ok]
    refine ⟨entry, hentry, ?_⟩
    rw [ite_throw_eq_ok, bind_eq_ok]
    refine ⟨by simpa using hkind, exit, hexit, ?_⟩
    rw [ite_throw_eq_ok, seq_eq_ok, checkLocations_eq_ok]
    refine ⟨by simpa using hkind', fun id l hl => ?_, h.cycles⟩
    have hl := Procedure.location_eq_ok.2 hl
    rw [Nat.zero_add]
    exact ⟨h.entry_unique id l hl, h.exit_unique id l hl, checkEdges_eq_ok.2 (h.edges id l hl)⟩

theorem checkProcedures_eq_ok {seen : List String} {fs : List Procedure} :
    p.checkProcedures seen fs = .ok () ↔ (fs.map Procedure.name).Nodup ∧ (∀ f ∈ fs, f.name ∉ seen) ∧
    ∀ f ∈ fs, f.WellFormed p := by
  induction fs generalizing seen with
  | nil => simp [checkProcedures]
  | cons f fs ih =>
    rw [checkProcedures, ite_throw_eq_ok, seq_eq_ok, ih, checkProcedure_eq_ok, List.map_cons,
      List.nodup_cons, List.forall_mem_cons, List.forall_mem_cons, List.contains_iff_mem]
    constructor
    · rintro ⟨hseen, hf, hnodup, hnew, hfs⟩
      refine ⟨⟨fun hin => ?_, hnodup⟩,
        ⟨hseen, fun g hg hin => hnew g hg (List.mem_cons_of_mem _ hin)⟩, hf, hfs⟩
      obtain ⟨g, hg, hname⟩ := List.mem_map.1 hin
      exact hnew g hg (hname ▸ List.mem_cons_self)
    · rintro ⟨⟨hname, hnodup⟩, ⟨hseen, hnew⟩, hf, hfs⟩
      refine ⟨hseen, hf, hnodup, fun g hg hin => ?_, hfs⟩
      rcases List.mem_cons.1 hin with heq | hin
      · exact hname (heq ▸ List.mem_map_of_mem hg)
      · exact hnew g hg hin

theorem wellFormed_of_validate (h : p.validate = .ok ()) : ∀ f ∈ p.procedures, f.WellFormed p :=
  (checkProcedures_eq_ok.1 h).2.2

end Program

namespace Procedure.WellFormed
variable {f : Procedure} {p : Program}

theorem exists_entryConditions (h : f.WellFormed p) : ∃ cs, f.entryConditions = .ok cs := by
  obtain ⟨l, hl, -⟩ := h.entry
  exact ⟨l.annotations, by rw [entryConditions, hl]; rfl⟩

theorem exists_exitConditions (h : f.WellFormed p) : ∃ cs, f.exitConditions = .ok cs := by
  obtain ⟨l, hl, -⟩ := h.exit
  exact ⟨l.annotations, by rw [exitConditions, hl]; rfl⟩

theorem exists_entryRankings (h : f.WellFormed p) : ∃ rs, f.entryRankings = .ok rs := by
  obtain ⟨l, hl, -⟩ := h.entry
  exact ⟨l.rankings, by rw [entryRankings, hl]; rfl⟩

theorem target_defaultEdge (h : f.WellFormed p) : ∃ l, f.location f.defaultEdge.target = .ok l := by
  obtain ⟨l, hl, -⟩ := h.exit
  exact exists_location (target_defaultEdge_lt (location_lt hl))

theorem entry_ne_exit (h : f.WellFormed p) : f.entry ≠ f.exit := by
  obtain ⟨l, hl, hentry⟩ := h.entry
  obtain ⟨m, hm, hexit⟩ := h.exit
  intro heq
  rw [← heq, hl] at hm
  cases hm
  unfold Location.isEntry at hentry
  unfold Location.isExit at hexit
  split at hentry <;> simp_all

theorem isLoopHead_exit (h : f.WellFormed p) {l : Location} (hl : f.location f.exit = .ok l) :
    l.isLoopHead = false := by
  obtain ⟨m, hm, hexit⟩ := h.exit
  rw [hl] at hm
  cases hm
  unfold Location.isExit at hexit
  unfold Location.isLoopHead
  split at hexit <;> simp_all

theorem target_defaultEdge_ne_entry (h : f.WellFormed p) : f.defaultEdge.target ≠ f.entry := by
  rw [defaultEdge]
  cases hbody : f.body.head? with
  | none => exact h.entry_ne_exit.symm
  | some id =>
    have hid : id ∈ f.body := List.mem_of_head? hbody
    rw [body, List.mem_filter, Bool.and_eq_true, bne_iff_ne] at hid
    exact hid.2.1

theorem target (h : f.WellFormed p) {id : Nat} {es : List Edge} (hes : f.edges id = .ok es)
    {e : Edge} (he : e ∈ es) : ∃ l, f.location e.target = .ok l := by
  obtain ⟨l, hl, rfl⟩ := edges_eq_ok.1 hes
  split at he
  · rw [List.mem_singleton.1 he]
    exact h.target_defaultEdge
  · exact (Program.checkEdge_eq_ok.1 (h.edges id l hl e he)).1

theorem call (h : f.WellFormed p) {id : Nat} {l : Location} (hl : f.location id = .ok l)
    {e : Edge} (he : e ∈ l.edges) {lhs args : List Var} {name : String}
    (hs : e.statement = .call lhs name args) :
    ∃ g, p.procedure name = .ok g ∧ f.checkCall g lhs args = .ok () :=
  (Program.checkEdge_eq_ok.1 (h.edges id l hl e he)).2 lhs name args hs

/-- What holds of a location as soon as it holds of all locations that edges lead to, loop heads
apart, holds of all locations but loop heads. -/
theorem induct (h : f.WellFormed p) {P : Nat → Prop} (step : ∀ id es, f.edges id = .ok es →
      (∀ e ∈ es, ∃ l, f.location e.target = .ok l ∧ (l.isLoopHead = true ∨ P e.target)) → P id)
    {id : Nat} {l : Location} (hl : f.location id = .ok l)
    (hhead : l.isLoopHead = false) : P id := by
  obtain ⟨ids, hsorted, hall⟩ := exists_sorted_of_checkCycles h.cycles
  have hids : ∀ ids, f.Sorted ids → ∀ id ∈ ids, P id := by
    intro ids
    induction ids with
    | nil => simp
    | cons i ids ih =>
      rintro ⟨hsorted, es, hes, htargets⟩
      refine List.forall_mem_cons.2 ⟨step i es hes fun e he => ?_, ih hsorted⟩
      obtain ⟨m, hm, hor⟩ := htargets e he
      exact ⟨m, hm, hor.imp_right (ih hsorted _)⟩
  refine hids ids hsorted id ((hall id l hl).resolve_left ?_)
  rw [hhead]
  exact Bool.false_ne_true

end Procedure.WellFormed

end Cutpoint
