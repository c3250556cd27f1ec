import Mathlib.Data.Finset.Card
import Mathlib.Data.List.Perm.Subperm
import Cutpoint.Proofs.Path.Segment

/-!
# The search for basic paths ends

* `Procedure.Ranks`: a number for every location, not above their number, that gets smaller along
  every edge out of a location that is no loop head. There is one in every well-formed procedure
  (`Procedure.WellFormed.exists_ranks`);
* `Procedure.WellFormed.exists_explore`: on the way from the entry a new loop head is met at most
  once for each location, and between two of them the rank falls, so that the search does not run
  out of fuel;
* `basicPaths_exact`: the search gives a list without repetitions of exactly the segments that start
  at the entry, or at a loop head or call site that such segments lead to.
-/

set_option autoImplicit false

namespace Cutpoint

/-! ## Ranks -/

namespace Procedure

/-- Locations that are listed twice can be left out. -/
theorem Sorted.exists_nodup {f : Procedure} {ids : List Nat} (h : f.Sorted ids) :
    ∃ js, f.Sorted js ∧ js.Nodup ∧ ∀ id, id ∈ js ↔ id ∈ ids := by
  induction ids with
  | nil => exact ⟨[], trivial, List.nodup_nil, fun _ => Iff.rfl⟩
  | cons i ids ih =>
    obtain ⟨hids, es, hes, htargets⟩ := h
    obtain ⟨js, hjs, hnodup, hmem⟩ := ih hids
    by_cases hi : i ∈ js
    · refine ⟨js, hjs, hnodup, fun id => ?_⟩
      rw [hmem, List.mem_cons]
      refine ⟨Or.inr, ?_⟩
      rintro (rfl | h)
      · exact (hmem id).1 hi
      · exact h
    · refine ⟨i :: js, ⟨hjs, es, hes, fun e he => ?_⟩, List.nodup_cons.2 ⟨hi, hnodup⟩, fun id => ?_⟩
      · obtain ⟨l, hl, hor⟩ := htargets e he
        exact ⟨l, hl, hor.imp_right (hmem _).2⟩
      · rw [List.mem_cons, List.mem_cons, hmem]

/-- All listed locations are there. -/
theorem Sorted.lt {f : Procedure} {ids : List Nat} (h : f.Sorted ids) :
    ∀ id ∈ ids, id < f.locations.length := by
  induction ids with
  | nil => simp
  | cons i ids ih =>
    obtain ⟨hids, es, hes, -⟩ := h
    obtain ⟨l, hl, -⟩ := edges_eq_ok.1 hes
    exact List.forall_mem_cons.2 ⟨location_lt hl, ih hids⟩

/-- Ranks count the locations that can still be passed before the next loop head. -/
structure Ranks (f : Procedure) (rank : Nat → Nat) : Prop where
  le : ∀ id, rank id ≤ f.locations.length
  step : ∀ id l es, f.location id = .ok l → l.isLoopHead = false → f.edges id = .ok es →
    ∀ e ∈ es, rank e.target < rank id

/-- Positions in a sorted list, counted from its end, fall along the edges to listed locations. -/
theorem Sorted.exists_position {f : Procedure} {ids : List Nat} (h : f.Sorted ids)
    (hnodup : ids.Nodup) :
    ∃ position : Nat → Nat, (∀ id, position id ≤ ids.length) ∧ ∀ id ∈ ids, 0 < position id ∧
      ∃ es, f.edges id = .ok es ∧
      ∀ e ∈ es, ∃ l, f.location e.target = .ok l ∧
        (l.isLoopHead = true ∨ (e.target ∈ ids ∧ position e.target < position id)) := by
  induction ids with
  | nil => exact ⟨fun _ => 0, by simp, by simp⟩
  | cons i ids ih =>
    obtain ⟨hids, es, hes, htargets⟩ := h
    obtain ⟨hi, hnodup⟩ := List.nodup_cons.1 hnodup
    obtain ⟨position, hle, hposition⟩ := ih hids hnodup
    have hother : ∀ id ∈ ids, Function.update position i (ids.length + 1) id = position id := by
      intro id hid
      refine Function.update_of_ne ?_ _ _
      rintro rfl
      exact hi hid
    refine ⟨Function.update position i (ids.length + 1), fun id => ?_,
      List.forall_mem_cons.2 ⟨?_, ?_⟩⟩
    · have := hle id
      rw [List.length_cons, Function.update_apply]
      split <;> omega
    · rw [Function.update_self]
      refine ⟨Nat.succ_pos _, es, hes, fun e he => ?_⟩
      obtain ⟨l, hl, hor⟩ := htargets e he
      refine ⟨l, hl, hor.imp_right fun htarget => ⟨List.mem_cons_of_mem _ htarget, ?_⟩⟩
      rw [hother _ htarget]
      exact Nat.lt_succ_of_le (hle e.target)
    · intro id hid
      obtain ⟨hpos, js, hjs, hor⟩ := hposition id hid
      rw [hother id hid]
      refine ⟨hpos, js, hjs, fun e he => ?_⟩
      obtain ⟨l, hl, hor⟩ := hor e he
      refine ⟨l, hl, hor.imp_right fun htarget => ⟨List.mem_cons_of_mem _ htarget.1, ?_⟩⟩
      rw [hother _ htarget.1]
      exact htarget.2

theorem WellFormed.exists_ranks {f : Procedure} {p : Program} (hf : f.WellFormed p) :
    ∃ rank, f.Ranks rank := by
  classical
  obtain ⟨ids, hsorted, hall⟩ := exists_sorted_of_checkCycles hf.cycles
  obtain ⟨js, hjs, hnodup, hmem⟩ := hsorted.exists_nodup
  obtain ⟨position, hle, hposition⟩ := hjs.exists_position hnodup
  have hlength : js.length ≤ f.locations.length := by
    have hsub : js ⊆ List.range f.locations.length := fun id hid => List.mem_range.2 (hjs.lt id hid)
    simpa using (hnodup.subperm hsub).length_le
  -- loop heads come last
  refine ⟨fun id => if ∃ l, f.location id = .ok l ∧ l.isLoopHead = true then 0 else position id,
    fun id => ?_,
    fun id l es hl hhead hes e he => ?_⟩
  · have := hle id
    split <;> omega
  · have hnot : ¬ ∃ m, f.location id = .ok m ∧ m.isLoopHead = true := by
      rintro ⟨m, hm, h⟩
      rw [hl] at hm
      cases hm
      rw [hhead] at h
      cases h
    have hid : id ∈ js := (hmem id).2 ((hall id l hl).resolve_left fun h => hnot ⟨l, hl, h⟩)
    obtain ⟨hpos, es', hes', htargets⟩ := hposition id hid
    rw [hes] at hes'
    cases hes'
    obtain ⟨m, hm, hor⟩ := htargets e he
    rw [if_neg hnot]
    rcases hor with h | h
    · rw [if_pos ⟨m, hm, h⟩]
      exact hpos
    · split
      · exact hpos
      · exact h.2

/-! ## Fuel -/

/-- The locations that are not in memory. -/
def unseen (f : Procedure) (memory : List Nat) : Finset Nat :=
  (Finset.range f.locations.length).filter (· ∉ memory)

theorem card_unseen_le (f : Procedure) (memory : List Nat) :
    (f.unseen memory).card ≤ f.locations.length := by
  have := Finset.card_filter_le (Finset.range f.locations.length) (· ∉ memory)
  rwa [Finset.card_range] at this

theorem card_unseen_cons {f : Procedure} {id : Nat} {memory : List Nat}
    (hlt : id < f.locations.length) (hid : id ∉ memory) :
    (f.unseen (id :: memory)).card < (f.unseen memory).card := by
  refine Finset.card_lt_card (Finset.ssubset_iff_subset_ne.2 ⟨fun j hj => ?_, fun heq => ?_⟩)
  · simp only [unseen, Finset.mem_filter, List.mem_cons, not_or] at hj ⊢
    exact ⟨hj.1, hj.2.2⟩
  · have hmem : id ∈ f.unseen (id :: memory) := by
      rw [heq, unseen, Finset.mem_filter, Finset.mem_range]
      exact ⟨hlt, hid⟩
    rw [unseen, Finset.mem_filter] at hmem
    exact hmem.2 List.mem_cons_self

/-- Above this number there is enough fuel to search from the location. -/
def effort (f : Procedure) (rank : Nat → Nat) (memory : List Nat) (id : Nat) : Nat :=
  (f.unseen memory).card * (f.locations.length + 1) + rank id

theorem exists_gather {α β : Type} {g : α → Except Fault (List β)} {as : List α}
    (h : ∀ a ∈ as, ∃ bs, g a = .ok bs) : ∃ out, gather g as = .ok out := by
  induction as with
  | nil => exact ⟨[], rfl⟩
  | cons a as ih =>
    rw [List.forall_mem_cons] at h
    obtain ⟨bs, hbs⟩ := h.1
    obtain ⟨later, hlater⟩ := ih h.2
    exact ⟨later ++ bs, bind_eq_ok.2 ⟨later, hlater, bind_eq_ok.2 ⟨bs, hbs, rfl⟩⟩⟩

section Effort
variable {f : Procedure} {rank : Nat → Nat} (hrank : f.Ranks rank) {memory : List Nat}
  {id fuel : Nat} {l : Location} {es : List Edge} (hl : f.location id = .ok l)
  (hes : f.edges id = .ok es) (hfuel : f.effort rank memory id < fuel + 1)
include hrank hl hfuel

include hes in
/-- Past a location that is no loop head there is still enough fuel. -/
theorem Ranks.effort_next (hhead : l.isLoopHead = false) :
    ∀ e ∈ es, f.effort rank memory e.target < fuel := by
  intro e he
  have := hrank.step id l es hl hhead hes e he
  unfold effort at *
  omega

/-- Past a loop head that was not in memory there is still enough fuel. -/
theorem Ranks.effort_head (hid : id ∉ memory) (target : Nat) :
    f.effort rank (id :: memory) target < fuel := by
  have hcard := card_unseen_cons (location_lt hl) hid
  have hle := hrank.le target
  have hmul := Nat.mul_le_mul_right (f.locations.length + 1) hcard
  unfold effort at *
  rw [Nat.succ_mul] at hmul
  omega

end Effort

/-- The search succeeds with enough fuel. -/
theorem WellFormed.exists_explore {f : Procedure} {p : Program} (hf : f.WellFormed p)
    {rank : Nat → Nat} (hrank : f.Ranks rank) {fuel id : Nat} {l : Location}
    (hl : f.location id = .ok l) (path : BasicPath) (memory : List Nat)
    (hfuel : f.effort rank memory id < fuel) : ∃ out, f.explore fuel id path memory = .ok out := by
  induction fuel generalizing id l path memory with
  | zero => exact absurd hfuel (Nat.not_lt_zero _)
  | succ fuel ih =>
    obtain ⟨es, hes⟩ : ∃ es, f.edges id = .ok es := ⟨_, edges_eq_ok.2 ⟨l, hl, rfl⟩⟩
    -- all edges can be followed if the fuel is enough for each
    have hspread : ∀ (next : Nat → Nat → BasicPath) (memory' : List Nat),
        (∀ e ∈ es, f.effort rank memory' e.target < fuel) →
        ∃ out, gather (fun x => f.explore fuel x.1.target (next x.2 x.1.target) memory') es.zipIdx =
        .ok out := by
      intro next memory' heffort
      refine exists_gather fun ⟨e, i⟩ he => ?_
      have hmem : e ∈ es := List.mem_of_getElem? (List.mem_zipIdx_iff_getElem?.1 he)
      obtain ⟨m, hm⟩ := hf.target hes hmem
      exact ih hm _ memory' (heffort e hmem)
    have hrestart : ∀ memory' : List Nat, (∀ e ∈ es, f.effort rank memory' e.target < fuel) →
        ∃ out,
        (gather (fun x => f.explore fuel x.1.target ⟨id, [(x.2, x.1.target)]⟩ memory') es.zipIdx >>=
          fun rest => pure (path :: rest)) = .ok out := by
      intro memory' heffort
      obtain ⟨rest, hrest⟩ := hspread (fun i t => ⟨id, [(i, t)]⟩) memory' heffort
      exact ⟨path :: rest, bind_eq_ok.2 ⟨rest, hrest, rfl⟩⟩
    simp only [explore, bind_eq_ok, hl, hes, Except.ok.injEq, exists_eq_left']
    split
    · split
      · exact ⟨_, rfl⟩
      · next hknown =>
        refine hrestart _ fun e he => ?_
        by_cases hhead : l.isLoopHead = true
        · rw [if_pos hhead]
          exact hrank.effort_head hl hfuel (by simpa [hhead] using hknown) e.target
        · rw [if_neg hhead]
          exact hrank.effort_next hl hes hfuel (Bool.eq_false_iff.2 hhead) e he
    · split
      · exact ⟨_, rfl⟩
      · split
        · split
          · exact ⟨_, rfl⟩
          · next hknown => exact hrestart _ fun e _ =>
              hrank.effort_head hl hfuel (by simpa using hknown) e.target
        · next hhead =>
          refine hspread path.extend memory ?_
          exact hrank.effort_next hl hes hfuel (Bool.eq_false_iff.2 hhead)

/-- The search succeeds in every well-formed procedure. -/
theorem WellFormed.exists_basicPaths {f : Procedure} {p : Program} (hf : f.WellFormed p) :
    ∃ paths, f.basicPaths = .ok paths := by
  obtain ⟨rank, hrank⟩ := hf.exists_ranks
  obtain ⟨l, hl, -⟩ := hf.entry
  have hfuel : f.effort rank [] f.entry < f.exploreFuel := by
    have hcard := Nat.mul_le_mul_right (f.locations.length + 1) (f.card_unseen_le [])
    have hle := hrank.le f.entry
    rw [effort, exploreFuel, Nat.succ_mul]
    omega
  obtain ⟨out, hout⟩ := hf.exists_explore hrank hl ⟨f.entry, []⟩ [] hfuel
  exact ⟨distinct out, bind_eq_ok.2 ⟨out, hout, rfl⟩⟩

end Procedure

/-! ## Segments -/

theorem nodup_distinct {α : Type} [DecidableEq α] (as : List α) : (distinct as).Nodup := by
  induction as with
  | nil => exact List.nodup_nil
  | cons a as ih =>
    rw [distinct, List.nodup_cons]
    exact ⟨by simp, ih.filter _⟩

namespace Procedure

/-- The steps are along edges, each from where the one before leads. -/
def Connects (f : Procedure) : Nat → List (Nat × Nat) → Prop
  | _, [] => True
  | id, (index, target) :: steps =>
    (∃ es e, f.edges id = .ok es ∧ es[index]? = some e ∧ e.target = target) ∧
      f.Connects target steps

theorem completes_cons {f : Procedure} {id index target : Nat} {steps : List (Nat × Nat)} :
    f.Completes id ((index, target) :: steps) ↔ ¬ f.IsCut id ∧
      (∃ es e, f.edges id = .ok es ∧ es[index]? = some e ∧ e.target = target) ∧
      f.Completes target steps := by
  constructor
  · rintro (_ | ⟨hcut, hes, he, hsteps⟩)
    exact ⟨hcut, ⟨_, _, hes, he, rfl⟩, hsteps⟩
  · rintro ⟨hcut, ⟨es, e, hes, he, rfl⟩, hsteps⟩
    exact .go hcut hes he hsteps

/-- What completes a path is connected, and its only cut point is where it ends. -/
theorem completes_iff {f : Procedure} {id : Nat} {steps : List (Nat × Nat)} :
    f.Completes id steps ↔
      f.Connects id steps ∧ (∀ j ∈ (id :: steps.map Prod.snd).dropLast, ¬ f.IsCut j) ∧
      f.IsCut (BasicPath.finish ⟨id, steps⟩) := by
  induction steps generalizing id with
  | nil =>
    refine ⟨fun h => ?_, fun h => .stop h.2.2⟩
    cases h with
    | stop hcut => exact ⟨trivial, by simp, hcut⟩
  | cons step steps ih =>
    obtain ⟨index, target⟩ := step
    rw [completes_cons, ih, BasicPath.finish_cons, Connects, List.map_cons, List.dropLast_cons_cons,
      List.forall_mem_cons]
    tauto

/-- An edge out of the location is a call. -/
def IsCallSite (f : Procedure) (id : Nat) : Prop :=
  ∃ es, f.edges id = .ok es ∧ ∃ e ∈ es, e.statement.isCall = true

theorem isCallSite_iff {f : Procedure} {id : Nat} {l : Location} (hl : f.location id = .ok l) :
    f.IsCallSite id ↔ l.hasCall = true := by
  rw [Location.hasCall, List.any_eq_true]
  constructor
  · rintro ⟨es, hes, e, he, hcall⟩
    obtain ⟨m, hm, he⟩ := mem_edges_of_call hes he hcall
    rw [hl] at hm
    cases hm
    exact ⟨e, he, hcall⟩
  · rintro ⟨e, he, hcall⟩
    refine ⟨l.edges, edges_eq_ok.2 ⟨l, hl, ?_⟩, e, he, hcall⟩
    rw [if_neg]
    rintro ⟨-, hempty⟩
    rw [List.isEmpty_iff.1 hempty] at he
    cases he

/-- The entry is a cut point only as a call site. -/
theorem WellFormed.isAnchor_entry_iff {f : Procedure} {p : Program} (hf : f.WellFormed p) :
    f.IsAnchor f.entry ↔ f.IsCallSite f.entry := by
  obtain ⟨l, hl, hentry⟩ := hf.entry
  rw [isAnchor_iff hl, isCallSite_iff hl]
  refine or_iff_left ?_
  unfold Location.isEntry at hentry
  unfold Location.isLoopHead
  split at hentry <;> simp_all

end Procedure

/-- The locations strictly between the two ends. -/
def BasicPath.inner (path : BasicPath) : List Nat := (path.steps.map Prod.snd).dropLast

/-- A segment is a path of at least one edge with no cut point strictly between its ends and a cut
point at its end. -/
theorem BasicPath.isSegment_iff {f : Procedure} {path : BasicPath} :
    path.IsSegment f ↔ path.steps ≠ [] ∧ f.Connects path.start path.steps ∧
      (∀ id ∈ path.inner, ¬ f.IsCut id) ∧ f.IsCut path.finish := by
  obtain ⟨start, steps⟩ := path
  cases steps with
  | nil =>
    refine ⟨?_, fun h => absurd rfl h.1⟩
    rintro ⟨⟩
  | cons step steps =>
    obtain ⟨index, target⟩ := step
    have hmk : IsSegment f ⟨start, (index, target) :: steps⟩ ↔
        (∃ es e, f.edges start = .ok es ∧ es[index]? = some e ∧ e.target = target) ∧
        f.Completes target steps := by
      constructor
      · rintro ⟨hes, he, hsteps⟩
        exact ⟨⟨_, _, hes, he, rfl⟩, hsteps⟩
      · rintro ⟨⟨es, e, hes, he, rfl⟩, hsteps⟩
        exact .mk hes he hsteps
    rw [hmk, Procedure.completes_iff, finish_cons, inner, List.map_cons, Procedure.Connects]
    simp [and_assoc]

/-- **The basic paths of a validated program**: the search gives a list without repetitions, of
exactly the paths of at least one edge that start at the entry, or at a loop head or call site that
such a path leads to, and have their only cut point after the start at their end; and the path
without an edge if a call leaves the entry. -/
theorem basicPaths_exact {p : Program} (hp : p.validate = .ok ()) {f : Procedure}
    (hf : f ∈ p.procedures) :
    ∃ paths, f.basicPaths = .ok paths ∧ paths.Nodup ∧ ∀ path, path ∈ paths ↔
      (f.Starts path.start ∧ path.steps ≠ [] ∧ f.Connects path.start path.steps ∧
        (∀ id ∈ path.inner, ¬ f.IsCut id) ∧ f.IsCut path.finish) ∨
      (path = ⟨f.entry, []⟩ ∧ f.IsCallSite f.entry) := by
  have hwf := Program.wellFormed_of_validate hp f hf
  obtain ⟨paths, hpaths⟩ := hwf.exists_basicPaths
  refine ⟨paths, hpaths, ?_, fun path => ?_⟩
  · obtain ⟨out, -, hout⟩ := bind_eq_ok.1 hpaths
    cases hout
    exact nodup_distinct out
  · rw [Procedure.mem_basicPaths hwf hpaths, Procedure.IsBasic, BasicPath.isSegment_iff,
      hwf.isAnchor_entry_iff, or_comm, and_comm (b := f.Starts path.start)]

/-! ## An example -/

namespace Nested

def go : Statement := .assume .tt

def tick : Procedure := ⟨"tick", [], [], 0, 1, [⟨.entry [] [], []⟩, ⟨.exit [], []⟩]⟩

/-- Two loops with a common location, both entered from outside; the head of one is a call site. -/
def nested : Procedure where
  name := "nested"
  parameters := []
  results := []
  entry := 0
  exit := 5
  locations := [
    ⟨.entry [] [], [⟨1, go⟩, ⟨2, go⟩]⟩,
    ⟨.loopHead [] [], [⟨3, go⟩]⟩,
    ⟨.loopHead [] [], [⟨2, .call [] "tick" []⟩, ⟨4, go⟩]⟩,
    ⟨.plain, [⟨2, go⟩, ⟨5, go⟩]⟩,
    ⟨.plain, [⟨1, go⟩, ⟨2, .call [] "tick" []⟩]⟩,
    ⟨.exit [], []⟩]

def program : Program := ⟨[], [tick, nested]⟩

example : nested.basicPaths = .ok [⟨0, [(1, 2)]⟩, ⟨2, [(1, 4)]⟩, ⟨4, [(1, 2)]⟩, ⟨4, [(0, 1)]⟩,
    ⟨1, [(0, 3), (1, 5)]⟩, ⟨1, [(0, 3), (0, 2)]⟩, ⟨2, [(0, 2)]⟩, ⟨0, [(0, 1)]⟩] := rfl

end Nested

theorem basicPaths_exact_nested :
    Nested.program.validate = .ok () ∧
    ∃ paths, Nested.nested.basicPaths = .ok paths ∧ paths.Nodup ∧ ∀ path, path ∈ paths ↔
      (Nested.nested.Starts path.start ∧ path.steps ≠ [] ∧
        Nested.nested.Connects path.start path.steps ∧
        (∀ id ∈ path.inner, ¬ Nested.nested.IsCut id) ∧ Nested.nested.IsCut path.finish) ∨
      (path = ⟨Nested.nested.entry, []⟩ ∧ Nested.nested.IsCallSite Nested.nested.entry) :=
  ⟨rfl, basicPaths_exact (p := Nested.program) rfl (List.mem_cons_of_mem _ List.mem_cons_self)⟩

end Cutpoint
