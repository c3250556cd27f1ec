import Cutpoint.Path.Search
import Cutpoint.Proofs.Flow.WellFormed

/-!
# Basic paths are the segments between cut points

* `Procedure.IsCut`: the exit, the loop heads and the call sites;
* `Procedure.Completes f id steps`: the steps lead from `id` to the first cut point on their way,
  `id` included;
* `BasicPath.IsSegment`: one step and then on to the first cut point;
* `Procedure.Starts`: the entry, and every loop head or call site at the end of a segment from such
  a location.

`Procedure.mem_basicPaths` says that the search finds exactly the segments from these locations, and
the path without a step if the entry is a call site.
-/

set_option autoImplicit false

namespace Cutpoint

/-! ## Segments -/

namespace Procedure

/-- A call leaves the location, or it is the head of a loop. -/
def IsAnchor (f : Procedure) (id : Nat) : Prop :=
  ∃ l, f.location id = .ok l ∧ (l.hasCall = true ∨ l.isLoopHead = true)

theorem isAnchor_iff {f : Procedure} {id : Nat} {l : Location} (hl : f.location id = .ok l) :
    f.IsAnchor id ↔ l.hasCall = true ∨ l.isLoopHead = true := by
  refine ⟨?_, fun h => ⟨l, hl, h⟩⟩
  rintro ⟨m, hm, h⟩
  rw [hl] at hm
  cases hm
  exact h

/-- Basic paths end at the location. -/
def IsCut (f : Procedure) (id : Nat) : Prop := id = f.exit ∨ f.IsAnchor id

/-- From the location on, the steps lead to the first cut point. -/
inductive Completes (f : Procedure) : Nat → List (Nat × Nat) → Prop
  | stop {id : Nat} (hcut : f.IsCut id) : Completes f id []
  | go {id index : Nat} {es : List Edge} {e : Edge} {steps : List (Nat × Nat)} (hcut : ¬ f.IsCut id)
      (hes : f.edges id = .ok es) (he : es[index]? = some e) (hsteps : Completes f e.target steps) :
      Completes f id ((index, e.target) :: steps)

end Procedure

/-- One step, and from its target to the first cut point. -/
inductive BasicPath.IsSegment (f : Procedure) : BasicPath → Prop
  | mk {id index : Nat} {es : List Edge} {e : Edge} {steps : List (Nat × Nat)}
      (hes : f.edges id = .ok es) (he : es[index]? = some e) (hsteps : f.Completes e.target steps) :
      IsSegment f ⟨id, (index, e.target) :: steps⟩

/-- The locations where basic paths start. -/
inductive Procedure.Starts (f : Procedure) : Nat → Prop
  | entry : Starts f f.entry
  | next {path : BasicPath} (hstart : Starts f path.start) (hsegment : path.IsSegment f)
      (hanchor : f.IsAnchor path.finish) : Starts f path.finish

namespace BasicPath

@[simp] theorem finish_nil (id : Nat) : finish ⟨id, []⟩ = id := rfl

@[simp] theorem finish_append_one (id : Nat) (steps : List (Nat × Nat)) (index target : Nat) :
    finish ⟨id, steps ++ [(index, target)]⟩ = target := by
  simp [finish]

@[simp] theorem finish_cons (id index target : Nat) (steps : List (Nat × Nat)) :
    finish ⟨id, (index, target) :: steps⟩ = finish ⟨target, steps⟩ := by
  rw [finish, finish, List.getLast?_cons]
  cases steps.getLast? <;> rfl

@[simp] theorem finish_extend (path : BasicPath) (index target : Nat) :
    (path.extend index target).finish = target := by
  simp [extend]

end BasicPath

/-! ## The search -/

theorem mem_distinct {α : Type} [DecidableEq α] {a : α} {as : List α} :
    a ∈ distinct as ↔ a ∈ as := by
  induction as with
  | nil => simp [distinct]
  | cons b as ih =>
    rw [distinct, List.mem_cons, List.mem_filter, ih, List.mem_cons]
    by_cases h : a = b <;> simp [h]

namespace Procedure

/-- What is gathered is exactly what there is at the members. -/
theorem gather_eq_ok {α β : Type} {g : α → Except Fault (List β)} {as : List α} {out : List β}
    (h : gather g as = .ok out) :
    (∀ a ∈ as, ∃ bs, g a = .ok bs ∧ ∀ b ∈ bs, b ∈ out) ∧
    ∀ b ∈ out, ∃ a ∈ as, ∃ bs, g a = .ok bs ∧ b ∈ bs := by
  induction as generalizing out with
  | nil =>
    cases h
    simp
  | cons a as ih =>
    rw [gather, bind_eq_ok] at h
    obtain ⟨later, hlater, h⟩ := h
    rw [bind_eq_ok] at h
    obtain ⟨bs, hbs, h⟩ := h
    cases h
    obtain ⟨hall, hfrom⟩ := ih hlater
    constructor
    · refine List.forall_mem_cons.2 ⟨⟨bs, hbs, fun b hb => List.mem_append_right _ hb⟩,
        fun x hx => ?_⟩
      obtain ⟨cs, hcs, hsub⟩ := hall x hx
      exact ⟨cs, hcs, fun b hb => List.mem_append_left _ (hsub b hb)⟩
    · intro b hb
      rcases List.mem_append.1 hb with hb | hb
      · obtain ⟨x, hx, hrest⟩ := hfrom b hb
        exact ⟨x, List.mem_cons_of_mem _ hx, hrest⟩
      · exact ⟨a, List.mem_cons_self, bs, hbs, hb⟩

/-- The search goes on along every edge, with the path that `next` gives. -/
def Spreads (f : Procedure) (fuel id : Nat) (memory : List Nat) (next : Nat → Nat → BasicPath)
    (out : List BasicPath) : Prop :=
  ∃ es, f.edges id = .ok es ∧
    gather (fun (e, i) => f.explore fuel e.target (next i e.target) memory) es.zipIdx = .ok out

section Explore
variable {f : Procedure} {p : Program} {fuel id : Nat} {path : BasicPath} {memory : List Nat}
  {out : List BasicPath}

theorem Spreads.mem {next : Nat → Nat → BasicPath} (h : f.Spreads fuel id memory next out)
    {es : List Edge} (hes : f.edges id = .ok es) {index : Nat} {e : Edge}
    (he : es[index]? = some e) :
    ∃ part, f.explore fuel e.target (next index e.target) memory = .ok part ∧
      ∀ q ∈ part, q ∈ out := by
  obtain ⟨es', hes', hgather⟩ := h
  rw [hes] at hes'
  cases hes'
  exact (gather_eq_ok hgather).1 (e, index) (List.mem_zipIdx_iff_getElem?.2 he)

theorem Spreads.of_mem {next : Nat → Nat → BasicPath} (h : f.Spreads fuel id memory next out)
    {q : BasicPath} (hq : q ∈ out) :
    ∃ es index e part, f.edges id = .ok es ∧ es[index]? = some e ∧
      f.explore fuel e.target (next index e.target) memory = .ok part ∧ q ∈ part ∧
      ∀ q ∈ part, q ∈ out := by
  obtain ⟨es, hes, hgather⟩ := h
  obtain ⟨hall, hfrom⟩ := gather_eq_ok hgather
  obtain ⟨⟨e, index⟩, hmem, part, hpart, hq⟩ := hfrom q hq
  obtain ⟨part', hpart', hsub⟩ := hall _ hmem
  rw [hpart] at hpart'
  cases hpart'
  exact ⟨es, index, e, part, hes, List.mem_zipIdx_iff_getElem?.1 hmem, hpart, hq, hsub⟩

/-- What the search does at a location: at a cut point it ends the path, and at an anchor that is no
known loop head it starts a path with every edge; at any other location it goes on. -/
theorem explore_cases (hf : f.WellFormed p) (h : f.explore (fuel + 1) id path memory = .ok out) :
    (f.IsCut id ∧ out = [path] ∧ (f.IsAnchor id → id ∈ memory)) ∨
    (f.IsAnchor id ∧ ∃ memory' rest, out = path :: rest ∧ (∀ j ∈ memory', j = id ∨ j ∈ memory) ∧
      f.Spreads fuel id memory' (fun i t => ⟨id, [(i, t)]⟩) rest) ∨
    (¬ f.IsCut id ∧ f.Spreads fuel id memory path.extend out) := by
  rw [explore, bind_eq_ok] at h
  obtain ⟨l, hl, h⟩ := h
  rw [bind_eq_ok] at h
  obtain ⟨es, hes, h⟩ := h
  have hanchor := isAnchor_iff hl
  by_cases hcall : l.hasCall = true
  · rw [if_pos hcall] at h
    by_cases hknown : (l.isLoopHead && memory.contains id) = true
    · rw [if_pos hknown] at h
      cases h
      exact Or.inl ⟨Or.inr (hanchor.2 (Or.inl hcall)), rfl,
        fun _ => by simpa using (Bool.and_eq_true_iff.1 hknown).2⟩
    · rw [if_neg hknown, bind_eq_ok] at h
      obtain ⟨rest, hrest, h⟩ := h
      cases h
      refine Or.inr
        (Or.inl ⟨hanchor.2 (Or.inl hcall), _, rest, rfl, fun j hj => ?_, es, hes, hrest⟩)
      split at hj
      · exact List.mem_cons.1 hj
      · exact Or.inr hj
  · rw [if_neg hcall] at h
    by_cases hid : id = f.exit
    · rw [if_pos hid] at h
      cases h
      refine Or.inl ⟨Or.inl hid, rfl, fun ha => ?_⟩
      have hhead := hf.isLoopHead_exit (hid ▸ hl)
      exact absurd ((hanchor.1 ha).resolve_left hcall) (by rw [hhead]; exact Bool.false_ne_true)
    · rw [if_neg hid] at h
      by_cases hhead : l.isLoopHead = true
      · rw [if_pos hhead] at h
        by_cases hknown : memory.contains id = true
        · rw [if_pos hknown] at h
          cases h
          exact Or.inl ⟨Or.inr (hanchor.2 (Or.inr hhead)), rfl, fun _ => by simpa using hknown⟩
        · rw [if_neg hknown, bind_eq_ok] at h
          obtain ⟨rest, hrest, h⟩ := h
          cases h
          exact Or.inr (Or.inl ⟨hanchor.2 (Or.inr hhead), _, rest, rfl,
            fun j hj => List.mem_cons.1 hj, es, hes, hrest⟩)
      · rw [if_neg hhead] at h
        refine Or.inr (Or.inr ⟨?_, es, hes, h⟩)
        rintro (hcut | hcut)
        · exact hid hcut
        · exact (hanchor.1 hcut).elim hcall hhead

theorem mem_explore_of_completes (hf : f.WellFormed p) (h : f.explore fuel id path memory = .ok out)
    {steps : List (Nat × Nat)} (hsteps : f.Completes id steps) :
    ⟨path.start, path.steps ++ steps⟩ ∈ out := by
  induction hsteps generalizing fuel path memory out with
  | stop hcut =>
    rw [List.append_nil]
    cases fuel with
    | zero => cases h
    | succ fuel =>
      rcases explore_cases hf h with ⟨-, rfl, -⟩ | ⟨-, memory', rest, rfl, -⟩ | ⟨hncut, -⟩
      · exact List.mem_cons_self
      · exact List.mem_cons_self
      · exact absurd hcut hncut
  | @go id index es e steps hncut hes he hsteps ih =>
    cases fuel with
    | zero => cases h
    | succ fuel =>
      rcases explore_cases hf h with ⟨hcut, -⟩ | ⟨hanchor, -⟩ | ⟨-, hspreads⟩
      · exact absurd hcut hncut
      · exact absurd (Or.inr hanchor) hncut
      · obtain ⟨part, hpart, hsub⟩ := hspreads.mem hes he
        have := hsub _ (ih hpart)
        rwa [BasicPath.extend, List.append_assoc] at this

/-- From every anchor at the end of a path, all segments are found, unless it was known before. -/
theorem mem_explore_of_anchor (hf : f.WellFormed p) (h : f.explore fuel id path memory = .ok out)
    (hfinish : path.finish = id) {q : BasicPath} (hq : q ∈ out) (hanchor : f.IsAnchor q.finish) :
    q.finish ∈ memory ∨ ∀ r : BasicPath, r.IsSegment f → r.start = q.finish → r ∈ out := by
  induction fuel generalizing id path memory out with
  | zero => cases h
  | succ fuel ih =>
    rcases explore_cases hf h with
      ⟨-, rfl, hknown⟩ | ⟨-, memory', rest, rfl, hmemory, hspreads⟩ | ⟨-, hspreads⟩
    · rw [List.mem_singleton.1 hq, hfinish] at hanchor ⊢
      exact Or.inl (hknown hanchor)
    · have hhere : ∀ r : BasicPath, r.IsSegment f → r.start = id → r ∈ path :: rest := by
        rintro _ ⟨hes, he, hsteps⟩ rfl
        obtain ⟨part, hpart, hsub⟩ := hspreads.mem hes he
        exact List.mem_cons_of_mem _ (hsub _ (mem_explore_of_completes hf hpart hsteps))
      rcases List.mem_cons.1 hq with rfl | hq
      · exact Or.inr (hfinish ▸ hhere)
      · obtain ⟨es, index, e, part, hes, he, hpart, hq, hsub⟩ := hspreads.of_mem hq
        rcases ih hpart rfl hq with hm | hall
        · rcases hmemory _ hm with hid | hm
          · exact Or.inr (hid ▸ hhere)
          · exact Or.inl hm
        · exact Or.inr fun r hr hstart => List.mem_cons_of_mem _ (hsub r (hall r hr hstart))
    · obtain ⟨es, index, e, part, hes, he, hpart, hq, hsub⟩ := hspreads.of_mem hq
      exact (ih hpart (path.finish_extend _ _) hq).imp_right fun hall r hr hstart =>
        hsub r (hall r hr hstart)

/-- A path that the search may find. -/
def IsBasic (f : Procedure) (path : BasicPath) : Prop :=
  (path = ⟨f.entry, []⟩ ∧ f.IsAnchor f.entry) ∨ (path.IsSegment f ∧ f.Starts path.start)

theorem IsBasic.starts_finish {q : BasicPath} (h : f.IsBasic q) (hanchor : f.IsAnchor q.finish) :
    f.Starts q.finish := by
  rcases h with ⟨rfl, -⟩ | ⟨hsegment, hstart⟩
  · exact .entry
  · exact .next hstart hsegment hanchor

/-- If all that a path is continued to is basic, all that is found is. -/
theorem isBasic_of_mem_explore (hf : f.WellFormed p)
    (h : f.explore fuel id path memory = .ok out) (hfinish : path.finish = id)
    (hpath : ∀ steps, f.Completes id steps → f.IsBasic ⟨path.start, path.steps ++ steps⟩)
    {q : BasicPath} (hq : q ∈ out) : f.IsBasic q := by
  induction fuel generalizing id path memory out with
  | zero => cases h
  | succ fuel ih =>
    have hhere : f.IsCut id → f.IsBasic path := fun hcut => by simpa using hpath [] (.stop hcut)
    rcases explore_cases hf h with
      ⟨hcut, rfl, -⟩ | ⟨hanchor, memory', rest, rfl, -, hspreads⟩ | ⟨hncut, hspreads⟩
    · rw [List.mem_singleton.1 hq]
      exact hhere hcut
    · have hbasic := hhere (Or.inr hanchor)
      rcases List.mem_cons.1 hq with rfl | hq
      · exact hbasic
      · obtain ⟨es, index, e, part, hes, he, hpart, hq, -⟩ := hspreads.of_mem hq
        have hstart : f.Starts id := hfinish ▸ hbasic.starts_finish (hfinish ▸ hanchor)
        exact ih hpart rfl (fun steps hsteps => Or.inr ⟨.mk hes he hsteps, hstart⟩) hq
    · obtain ⟨es, index, e, part, hes, he, hpart, hq, -⟩ := hspreads.of_mem hq
      refine ih hpart (path.finish_extend _ _) (fun steps hsteps => ?_) hq
      have := hpath _ (.go hncut hes he hsteps)
      rwa [BasicPath.extend, List.append_assoc]

end Explore

/-- Nothing but a call makes the entry a cut point. -/
theorem WellFormed.isAnchor_entry {f : Procedure} {p : Program} (hf : f.WellFormed p)
    (hcut : f.IsCut f.entry) : f.IsAnchor f.entry :=
  hcut.resolve_left hf.entry_ne_exit

/-- What leads from the entry to the first cut point is a basic path. -/
theorem WellFormed.isBasic_entry {f : Procedure} {p : Program} (hf : f.WellFormed p)
    {steps : List (Nat × Nat)} (h : f.Completes f.entry steps) : f.IsBasic ⟨f.entry, steps⟩ := by
  generalize hid : f.entry = id at h
  cases h with
  | stop hcut => exact Or.inl ⟨by rw [hid], hf.isAnchor_entry (hid ▸ hcut)⟩
  | go hcut hes he hsteps => exact Or.inr ⟨.mk hes he hsteps, hid ▸ .entry⟩

/-- **The search finds exactly the segments** from the entry and from the loop heads and call sites
that they lead to, and the path without a step if the entry is a call site. -/
theorem mem_basicPaths {f : Procedure} {p : Program} (hf : f.WellFormed p) {paths : List BasicPath}
    (h : f.basicPaths = .ok paths) {path : BasicPath} : path ∈ paths ↔ f.IsBasic path := by
  rw [basicPaths, bind_eq_ok] at h
  obtain ⟨out, hout, h⟩ := h
  cases h
  rw [mem_distinct]
  refine ⟨isBasic_of_mem_explore hf hout rfl fun steps => hf.isBasic_entry, ?_⟩
  have hanchor : ∀ {q : BasicPath}, q ∈ out → f.IsAnchor q.finish → ∀ r : BasicPath, r.IsSegment f →
      r.start = q.finish → r ∈ out :=
    fun hq ha => (mem_explore_of_anchor hf hout rfl hq ha).resolve_left List.not_mem_nil
  have hentry : ∀ steps, f.Completes f.entry steps → ⟨f.entry, steps⟩ ∈ out :=
    fun steps => mem_explore_of_completes hf hout
  rintro (⟨rfl, ha⟩ | ⟨hsegment, hstart⟩)
  · exact hentry [] (.stop (Or.inr ha))
  · -- along the way from the entry
    have hall : ∀ id, f.Starts id → ∀ r : BasicPath, r.IsSegment f → r.start = id → r ∈ out := by
      intro id hid
      induction hid with
      | entry =>
        by_cases hcut : f.IsCut f.entry
        · exact hanchor (hentry [] (.stop hcut)) (hf.isAnchor_entry hcut)
        · rintro _ ⟨hes, he, hsteps⟩ rfl
          exact hentry _ (.go hcut hes he hsteps)
      | next hstart hsegment ha ih => exact hanchor (ih _ hsegment rfl) ha
    exact hall _ hstart path hsegment rfl

end Procedure

end Cutpoint
