import Mathlib.Logic.Relation
import Cutpoint.Proofs.Path.Search

/-!
# Which edges basic paths take

* `Procedure.Leads`: an edge leads from one location to another, and `Procedure.Reachable`: a run
  without regard to conditions gets to the location;
* `Procedure.exists_completes_iff`: a path can be completed exactly from the locations that lead to
  a cut point;
* `BasicPath.Takes`: the path goes along an edge;
* `edge_taken_iff`: of the edges out of reachable locations the basic paths take exactly those that
  lead to a cut point. An edge that leads nowhere but to locations without edges is in no condition,
  and so is an assertion on it (`Stuck.assertion_untaken`).
-/

set_option autoImplicit false

namespace Cutpoint

open Relation (ReflTransGen)

namespace Procedure

/-! ## Ways through the graph -/

def Leads (f : Procedure) (a b : Nat) : Prop := ∃ es, f.edges a = .ok es ∧ ∃ e ∈ es, e.target = b

/-- Edges lead from the entry to the location, and none of them leaves the exit. -/
def Reachable (f : Procedure) (id : Nat) : Prop :=
  ReflTransGen (fun a b => a ≠ f.exit ∧ f.Leads a b) f.entry id

/-- A path can be completed where a cut point can be reached. -/
theorem exists_completes_iff {f : Procedure} {id : Nat} :
    (∃ steps, f.Completes id steps) ↔ ∃ c, f.IsCut c ∧ ReflTransGen f.Leads id c := by
  constructor
  · rintro ⟨steps, hsteps⟩
    induction hsteps with
    | stop hcut => exact ⟨_, hcut, .refl⟩
    | go hcut hes he hsteps ih =>
      obtain ⟨c, hc, hreach⟩ := ih
      exact ⟨c, hc, .head ⟨_, hes, _, List.mem_of_getElem? he, rfl⟩ hreach⟩
  · rintro ⟨c, hc, hreach⟩
    induction hreach using ReflTransGen.head_induction_on with
    | refl => exact ⟨[], .stop hc⟩
    | @head a b hstep _ ih =>
      obtain ⟨es, hes, e, he, rfl⟩ := hstep
      obtain ⟨steps, hsteps⟩ := ih
      obtain ⟨index, hindex⟩ := List.mem_iff_getElem?.1 he
      by_cases hcut : f.IsCut a
      · exact ⟨[], .stop hcut⟩
      · exact ⟨(index, e.target) :: steps, .go hcut hes hindex hsteps⟩

theorem Completes.of_append {f : Procedure} {id : Nat} {before after : List (Nat × Nat)}
    (h : f.Completes id (before ++ after)) : f.Completes (BasicPath.finish ⟨id, before⟩) after := by
  induction before generalizing id with
  | nil => exact h
  | cons step before ih =>
    obtain ⟨index, target⟩ := step
    rw [BasicPath.finish_cons]
    exact ih (completes_cons.1 h).2.2

/-- The steps from `start` on begin a basic path, which may end at the location. -/
def Approaches (f : Procedure) (start : Nat) (before : List (Nat × Nat)) (id : Nat) : Prop :=
  BasicPath.finish ⟨start, before⟩ = id ∧ ∀ after, f.Completes id after →
    f.IsBasic ⟨start, before ++ after⟩

/-- A way on from a location belongs to the basic path that was begun, or at a cut point to one that
starts there. -/
theorem Approaches.next {f : Procedure} {start id : Nat} {before : List (Nat × Nat)}
    (h : f.Approaches start before id) (hid : id ≠ f.exit) {es : List Edge}
    (hes : f.edges id = .ok es) {index : Nat} {e : Edge} (he : es[index]? = some e) :
    ∃ start' before', BasicPath.finish ⟨start', before'⟩ = id ∧
      f.Approaches start' (before' ++ [(index, e.target)]) e.target := by
  obtain ⟨hfinish, hbasic⟩ := h
  by_cases hcut : f.IsCut id
  · have hpath : f.IsBasic ⟨start, before⟩ := by simpa using hbasic [] (.stop hcut)
    have hstarts : f.Starts id :=
      hfinish ▸ hpath.starts_finish (hfinish.symm ▸ hcut.resolve_left hid)
    exact ⟨id, [], rfl, rfl, fun after hafter => Or.inr ⟨.mk hes he hafter, hstarts⟩⟩
  · refine ⟨start, before, hfinish, BasicPath.finish_append_one _ _ _ _, fun after hafter => ?_⟩
    rw [List.append_assoc]
    exact hbasic _ (.go hcut hes he hafter)

/-- Every reachable location is on a basic path that was begun. -/
theorem WellFormed.exists_approaches {f : Procedure} {p : Program} (hf : f.WellFormed p) {id : Nat}
    (h : f.Reachable id) : ∃ start before, f.Approaches start before id := by
  induction h with
  | refl => exact ⟨f.entry, [], rfl, fun _ hafter => hf.isBasic_entry hafter⟩
  | tail _ hstep ih =>
    obtain ⟨start, before, happroaches⟩ := ih
    obtain ⟨hexit, es, hes, e, he, rfl⟩ := hstep
    obtain ⟨index, hindex⟩ := List.mem_iff_getElem?.1 he
    obtain ⟨start', before', -, hnext⟩ := happroaches.next hexit hes hindex
    exact ⟨start', _, hnext⟩

end Procedure

/-! ## Edges on paths -/

/-- The path leaves the location along its edge of the given number. -/
def BasicPath.Takes (path : BasicPath) (id index : Nat) : Prop :=
  ∃ before target after, path.steps = before ++ (index, target) :: after ∧
    finish ⟨path.start, before⟩ = id

/-- A segment leads from the target of every edge that it takes to a cut point. -/
theorem BasicPath.IsSegment.completes {f : Procedure} {path : BasicPath} (h : path.IsSegment f)
    {id index : Nat} (htakes : path.Takes id index) {es : List Edge} (hes : f.edges id = .ok es)
    {e : Edge} (he : es[index]? = some e) : ∃ after, f.Completes e.target after := by
  obtain ⟨before, target, after, hsteps, hfinish⟩ := htakes
  -- the edge that the path has taken is the one of its number
  have hsame : (∃ js d, f.edges id = .ok js ∧ js[index]? = some d ∧ d.target = target) →
      e.target = target := by
    rintro ⟨js, d, hjs, hd, rfl⟩
    rw [hes] at hjs
    cases hjs
    rw [he] at hd
    cases hd
    rfl
  obtain @⟨start, index', es', e', steps, hes', he', hrest⟩ := h
  cases before with
  | nil =>
    rw [List.nil_append, List.cons.injEq, Prod.mk.injEq] at hsteps
    obtain ⟨⟨rfl, htarget⟩, rfl⟩ := hsteps
    subst hfinish
    rw [hsame ⟨es', e', hes', he', htarget⟩, ← htarget]
    exact ⟨_, hrest⟩
  | cons step before =>
    rw [List.cons_append, List.cons.injEq] at hsteps
    obtain ⟨rfl, rfl⟩ := hsteps
    rw [BasicPath.finish_cons] at hfinish
    have hlater := hrest.of_append
    rw [hfinish, Procedure.completes_cons] at hlater
    rw [hsame hlater.2.1]
    exact ⟨_, hlater.2.2⟩

/-- **Which edges are checked**: an edge out of a reachable location other than the exit is on some
basic path if and only if the exit, a loop head or a call site can be reached from its target. -/
theorem edge_taken_iff {p : Program} (hp : p.validate = .ok ()) {f : Procedure}
    (hf : f ∈ p.procedures) {id : Nat} (hreach : f.Reachable id) (hid : id ≠ f.exit)
    {es : List Edge} (hes : f.edges id = .ok es) {index : Nat} {e : Edge}
    (he : es[index]? = some e) :
    ∃ paths, f.basicPaths = .ok paths ∧
      ((∃ path ∈ paths, path.Takes id index) ↔
        ∃ c, f.IsCut c ∧ ReflTransGen f.Leads e.target c) := by
  have hwf := Program.wellFormed_of_validate hp f hf
  obtain ⟨paths, hpaths⟩ := hwf.exists_basicPaths
  refine ⟨paths, hpaths, ?_⟩
  rw [← Procedure.exists_completes_iff]
  constructor
  · rintro ⟨path, hpath, htakes⟩
    rcases (Procedure.mem_basicPaths hwf hpaths).1 hpath with ⟨rfl, -⟩ | ⟨hsegment, -⟩
    · obtain ⟨before, target, after, hsteps, -⟩ := htakes
      simp at hsteps
    · exact hsegment.completes htakes hes he
  · rintro ⟨after, hafter⟩
    obtain ⟨start, before, happroaches⟩ := hwf.exists_approaches hreach
    obtain ⟨start', before', hfinish, -, hbasic⟩ := happroaches.next hid hes he
    refine ⟨_, (Procedure.mem_basicPaths hwf hpaths).2 (hbasic after hafter), before', e.target,
      after, ?_, hfinish⟩
    rw [List.append_assoc, List.singleton_append]

/-- The edge by which the loops are left. -/
theorem edge_taken_nested :
    ∃ paths, Nested.nested.basicPaths = .ok paths ∧ ∃ path ∈ paths, path.Takes 3 1 := by
  have hreach : Nested.nested.Reachable 3 :=
    .tail (.tail .refl ⟨by decide, _, rfl, _, List.mem_cons_self, rfl⟩) ⟨by decide, _, rfl, _,
      List.mem_cons_self, rfl⟩
  obtain ⟨paths, hpaths, htaken⟩ := edge_taken_iff (p := Nested.program) rfl
    (List.mem_cons_of_mem _ List.mem_cons_self) hreach (by decide) rfl
    (show [⟨2, Nested.go⟩, (⟨5, Nested.go⟩ : Edge)][1]? = some ⟨5, Nested.go⟩ from rfl)
  exact ⟨paths, hpaths, htaken.2 ⟨5, Or.inl rfl, .refl⟩⟩

/-! ## Edges that lead nowhere -/

namespace Stuck

/-- The assertion fails in every run, but after it there is no way on. -/
def stuck : Procedure where
  name := "stuck"
  parameters := []
  results := []
  entry := 0
  exit := 1
  locations := [⟨.entry [] [], []⟩, ⟨.exit [], []⟩, ⟨.plain, [⟨3, .assert .ff⟩]⟩, ⟨.plain, []⟩]

def program : Program := ⟨[], [stuck]⟩

/-- The program is well-formed and the location is reachable, but no basic path takes the edge with
the assertion. -/
theorem assertion_untaken :
    program.validate = .ok () ∧ stuck ∈ program.procedures ∧
    stuck.Reachable 2 ∧ 2 ≠ stuck.exit ∧ stuck.edges 2 = .ok [⟨3, .assert .ff⟩] ∧
    ∃ paths, stuck.basicPaths = .ok paths ∧ ¬ ∃ path ∈ paths, path.Takes 2 0 := by
  refine ⟨rfl, List.mem_cons_self,
    .single ⟨by decide, _, rfl, _, List.mem_cons_self, rfl⟩, by decide, rfl, [], rfl, ?_⟩
  rintro ⟨path, hpath, -⟩
  cases hpath

end Stuck

end Cutpoint
