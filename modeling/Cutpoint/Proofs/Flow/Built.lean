import Cutpoint.Proofs.Flow.Builder
import Cutpoint.Proofs.Flow.Validate

/-!
# A builder builds what it was told

* `Builder.Latest.only`: where one operation adds an entry, its location is the only entry, and so
  for exits;
* `Procedure.OnlyUncut f x`: the check `x` can find a cycle that passes no loop head, and nothing
  else;
* `Builder.AsTold.validate`: with one entry, one exit and no calls, a procedure that was built is
  well-formed except perhaps for its cycles;
* `Builder.build_exact`: a procedure is built exactly if the operations are complete, it is as told,
  and validation can find nothing but a cycle.
-/

set_option autoImplicit false

namespace Cutpoint

namespace Builder

section Build
variable {name : String} {ops : List Op} {f : Procedure}

/-! ## Entries and exits -/

/-- Where one operation is of a kind, the location that it adds is the only one of that kind. -/
theorem Latest.only {p : Op → Bool} {q : Location.Kind → Bool}
    (hpq : ∀ op, p op = (op.kind?.map q).getD false) {id : Nat} (h : Latest name p ops id)
    (hone : ops.countP p = 1) {j : Nat} {kind : Location.Kind}
    (hj : (Op.kinds ops)[j]? = some kind) : q kind = true ↔ j = id := by
  obtain ⟨before, op, after, rfl, hop, hafter, hid⟩ := h
  obtain ⟨k, hk, hq⟩ : ∃ k, op.kind? = some k ∧ q k = true := by
    rw [hpq] at hop
    cases hk : op.kind? with
    | none =>
      rw [hk] at hop
      cases hop
    | some k => exact ⟨k, rfl, by rwa [hk] at hop⟩
  have hbefore : ∀ o ∈ before, p o = false := by
    rw [List.countP_append, List.countP_cons_of_pos hop] at hone
    have hzero : before.countP p = 0 := by omega
    simpa using List.countP_eq_zero.1 hzero
  -- a location that another operation added is not of that kind
  have hother : ∀ os : List Op, (∀ o ∈ os, p o = false) → kind ∈ Op.kinds os → q kind = false := by
    intro os hos hmem
    obtain ⟨o, ho, hkind⟩ := List.mem_filterMap.1 hmem
    have hfalse := hos o ho
    rwa [hpq, hkind] at hfalse
  rw [perform_id _ _ hk, length_run] at hid
  obtain rfl := Option.some.inj hid
  rw [kinds_append_cons hk] at hj
  rcases Nat.lt_trichotomy j (Op.kinds before).length with hlt | rfl | hgt
  · rw [List.getElem?_append_left hlt] at hj
    rw [hother before hbefore (List.mem_of_getElem? hj)]
    exact iff_of_false Bool.false_ne_true (by omega)
  · rw [List.getElem?_append_right (Nat.le_refl _), Nat.sub_self] at hj
    obtain rfl : k = kind := Option.some.inj hj
    exact iff_of_true hq rfl
  · obtain ⟨d, hd⟩ : ∃ d, j - (Op.kinds before).length = d + 1 :=
      ⟨j - (Op.kinds before).length - 1, by omega⟩
    rw [List.getElem?_append_right (by omega), hd, List.getElem?_cons_succ] at hj
    rw [hother after hafter (List.mem_of_getElem? hj)]
    exact iff_of_false Bool.false_ne_true (by omega)

theorem AsTold.kinds_getElem? (h : AsTold name ops f) {id : Nat} {l : Location}
    (hl : f.locations[id]? = some l) : (Op.kinds ops)[id]? = some l.kind := by
  rw [h.locations_eq, List.getElem?_mapIdx] at hl
  obtain ⟨kind, hkind, rfl⟩ := Option.map_eq_some_iff.1 hl
  exact hkind

theorem AsTold.isEntry_iff (h : AsTold name ops f) (hone : ops.countP Op.isEntry = 1) {id : Nat}
    {l : Location} (hl : f.locations[id]? = some l) : l.isEntry = true ↔ id = f.entry :=
  h.entry.only (q := fun kind => Location.isEntry ⟨kind, []⟩)
    (fun op => by cases op <;> rfl) hone (h.kinds_getElem? hl)

theorem AsTold.isExit_iff (h : AsTold name ops f) (hone : ops.countP Op.isExit = 1) {id : Nat}
    {l : Location} (hl : f.locations[id]? = some l) : l.isExit = true ↔ id = f.exit :=
  h.exit.only (q := fun kind => Location.isExit ⟨kind, []⟩)
    (fun op => by cases op <;> rfl) hone (h.kinds_getElem? hl)

theorem AsTold.exists_location (h : AsTold name ops f) {p : Op → Bool}
    (hp : ∀ op, p op = true → ∃ kind, op.kind? = some kind) {id : Nat}
    (hid : Latest name p ops id) : ∃ l, f.location id = .ok l := by
  obtain ⟨before, op, after, hops, hop, -, hid⟩ := hid
  obtain ⟨kind, hkind⟩ := hp op hop
  obtain ⟨j, hj, hl⟩ := h.ids before op after kind hops hkind
  obtain rfl : j = id := Option.some.inj (hj.symm.trans hid)
  exact ⟨_, Procedure.location_eq_ok.2 hl⟩

theorem AsTold.mem_of_mem_edges (h : AsTold name ops f) {l : Location} (hl : l ∈ f.locations)
    {e : Edge} (he : e ∈ l.edges) : ∃ source, Op.edge source e.target e.statement ∈ ops := by
  rw [h.locations_eq] at hl
  obtain ⟨id, hid, rfl⟩ := List.mem_mapIdx.1 hl
  exact ⟨id, mem_filterMap_edgeFrom?.1 he⟩

theorem AsTold.target_lt (h : AsTold name ops f) (hcomplete : Complete ops) {l : Location}
    (hl : l ∈ f.locations) {e : Edge} (he : e ∈ l.edges) : e.target < f.locations.length := by
  obtain ⟨source, hop⟩ := h.mem_of_mem_edges hl he
  have hlt := hcomplete.target source e.target e.statement hop
  rwa [h.locations_eq, List.length_mapIdx]

end Build

end Builder

/-! ## What a check can find -/

namespace Procedure
variable {f : Procedure} {α β : Type}

theorem bind_of_eq_ok {x : Except Fault α} {a : α} (h : x = .ok a) (k : α → Except Fault β) :
    (x >>= k) = k a := by
  subst h
  rfl

/-- The check can find a cycle that passes no loop head, and nothing else. -/
def OnlyUncut (f : Procedure) (x : Except Fault α) : Prop :=
  ∀ err, x = .error err → ∃ id, err = .malformed f.name (.uncutCycle id)

theorem onlyUncut_ok (a : α) : f.OnlyUncut (.ok a) := nofun

theorem onlyUncut_uncutCycle (id : Nat) :
    f.OnlyUncut (.error (.malformed f.name (.uncutCycle id)) : Except Fault α) := by
  rintro _ ⟨⟩
  exact ⟨id, rfl⟩

theorem OnlyUncut.bind {x : Except Fault α} {k : α → Except Fault β} (hx : f.OnlyUncut x)
    (hk : ∀ a, x = .ok a → f.OnlyUncut (k a)) : f.OnlyUncut (x >>= k) := by
  cases x with
  | error err => exact fun _ herr => hx _ (by cases herr; rfl)
  | ok a => exact hk a rfl

theorem onlyUncut_visitTargets {visit : List Nat → Nat → Except Fault (List Nat)}
    {path : List Nat} {es : List Edge}
    (h : ∀ e ∈ es, e.target < f.locations.length ∧ ∀ done, f.OnlyUncut (visit done e.target))
    (done : List Nat) : f.OnlyUncut (f.visitTargets visit path es done) := by
  induction es generalizing done with
  | nil => exact onlyUncut_ok done
  | cons e es ih =>
    rw [List.forall_mem_cons] at h
    obtain ⟨⟨hlt, hvisit⟩, hrest⟩ := h
    obtain ⟨l, hl⟩ := exists_location hlt
    rw [visitTargets, bind_of_eq_ok hl]
    split
    · exact ih hrest done
    · split
      · exact onlyUncut_uncutCycle e.target
      · split
        · exact ih hrest done
        · exact (hvisit done).bind fun done' _ => ih hrest done'

section Targets
variable (hlt : ∀ i j, f.Leads i j → j < f.locations.length)
include hlt

theorem onlyUncut_visit {fuel id : Nat} (hid : id < f.locations.length) (path done : List Nat) :
    f.OnlyUncut (f.visit fuel path done id) := by
  induction fuel generalizing id path done with
  | zero => exact onlyUncut_uncutCycle id
  | succ fuel ih =>
    obtain ⟨l, hl⟩ := exists_location hid
    rw [visit, bind_of_eq_ok (edges_eq_ok.2 ⟨l, hl, rfl⟩)]
    refine OnlyUncut.bind (onlyUncut_visitTargets (fun e he => ?_) done) fun _ _ => onlyUncut_ok _
    have htarget : e.target < f.locations.length :=
      hlt id e.target ⟨_, edges_eq_ok.2 ⟨l, hl, rfl⟩, e, he, rfl⟩
    exact ⟨htarget, fun done => ih htarget (id :: path) done⟩

theorem onlyUncut_visitRoots {ids : List Nat} (hids : ∀ id ∈ ids, id < f.locations.length)
    (done : List Nat) : f.OnlyUncut (f.visitRoots ids done) := by
  induction ids generalizing done with
  | nil => exact onlyUncut_ok ()
  | cons id ids ih =>
    rw [List.forall_mem_cons] at hids
    obtain ⟨l, hl⟩ := exists_location hids.1
    rw [visitRoots, bind_of_eq_ok hl]
    split
    · exact ih hids.2 done
    · exact (onlyUncut_visit hlt hids.1 [] done).bind fun done' _ => ih hids.2 done'

theorem onlyUncut_checkCycles : f.OnlyUncut f.checkCycles :=
  onlyUncut_visitRoots hlt (fun _ hid => List.mem_range.1 hid) []

end Targets

end Procedure

/-- Where nothing is wrong with entry, exit and edges, all that is left to check of a program with
one procedure are the cycles. -/
theorem Program.validate_singleton {predicates : List Predicate} {f : Procedure}
    {entry exit : Location} (hentry : f.location f.entry = .ok entry)
    (hisEntry : entry.isEntry = true) (hexit : f.location f.exit = .ok exit)
    (hisExit : exit.isExit = true)
    (hlocations : checkLocations ⟨predicates, [f]⟩ f 0 f.locations = .ok ()) :
    validate ⟨predicates, [f]⟩ = f.checkCycles := by
  have hprocedure : checkProcedure ⟨predicates, [f]⟩ f = f.checkCycles := by
    rw [checkProcedure, Procedure.bind_of_eq_ok hentry, if_neg (by simp [hisEntry]),
      Procedure.bind_of_eq_ok hexit, if_neg (by simp [hisExit]), Procedure.bind_of_eq_ok hlocations]
  rw [validate, checkProcedures, if_neg (by simp), hprocedure]
  cases f.checkCycles <;> rfl

namespace Builder

section Single
variable {name : String} {ops : List Op} {f : Procedure} (h : AsTold name ops f)
  (hcomplete : Complete ops) (hentry : ops.countP Op.isEntry = 1) (hexit : ops.countP Op.isExit = 1)
  (hcalls : ∀ source target s, Op.edge source target s ∈ ops → s.isCall = false)
  (predicates : List Predicate)
include h hcomplete hentry hexit hcalls

theorem AsTold.checkLocations :
    Program.checkLocations ⟨predicates, [f]⟩ f 0 f.locations = .ok () := by
  refine Program.checkLocations_eq_ok.2 fun id l hl => ?_
  rw [Nat.zero_add]
  refine ⟨(h.isEntry_iff hentry hl).1, (h.isExit_iff hexit hl).1,
    Program.checkEdges_eq_ok.2 fun e he => Program.checkEdge_eq_ok.2 ?_⟩
  have hmem := List.mem_of_getElem? hl
  refine ⟨Procedure.exists_location (h.target_lt hcomplete hmem he), fun lhs callee args hs => ?_⟩
  obtain ⟨source, hop⟩ := h.mem_of_mem_edges hmem he
  have hcall := hcalls _ _ _ hop
  rw [hs] at hcall
  cases hcall

/-- With one entry, one exit and no calls, all that can be wrong is a cycle. -/
theorem AsTold.validate :
    (f.HeadsCut → Program.validate ⟨predicates, [f]⟩ = .ok ()) ∧
    f.OnlyUncut (Program.validate ⟨predicates, [f]⟩) := by
  obtain ⟨entry, hen⟩ := h.exists_location (fun _ => Op.exists_kind_of_isEntry) h.entry
  obtain ⟨exit, hex⟩ := h.exists_location (fun _ => Op.exists_kind_of_isExit) h.exit
  have hlt : ∀ i j, f.Leads i j → j < f.locations.length := fun i j =>
    Procedure.lt_of_leads (Procedure.location_lt hex) fun l hl e he => h.target_lt hcomplete hl he
  rw [Program.validate_singleton hen ((h.isEntry_iff hentry (Procedure.location_eq_ok.1 hen)).2 rfl)
    hex ((h.isExit_iff hexit (Procedure.location_eq_ok.1 hex)).2 rfl)
    (h.checkLocations hcomplete hentry hexit hcalls predicates)]
  exact ⟨fun hcut => hcut.checkCycles hlt, Procedure.onlyUncut_checkCycles hlt⟩

end Single

/-- **A builder builds what it was told**: whatever operations it is told from the start on, it
builds a procedure exactly if an entry and an exit were added, the source of each edge was there
when the edge was added, and its target is there in the end. The procedure has the locations in the
order in which they were added, under the numbers that were returned, each with the edges that were
added to it, and the parameters and results, all in order; its entry and exit are the latest ones.
With one entry, one exit and no calls, the program of this procedure fails validation only for a
cycle that passes no loop head. -/
theorem build_exact (name : String) (ops : List Op) :
    ((∃ f, (run name ops).build = .ok f) ↔ Complete ops) ∧
    ∀ f, (run name ops).build = .ok f → AsTold name ops f ∧
      (ops.countP Op.isEntry = 1 → ops.countP Op.isExit = 1 →
        (∀ source target s, Op.edge source target s ∈ ops → s.isCall = false) →
        ∀ predicates err, Program.validate ⟨predicates, [f]⟩ = .error err →
          (∃ id, err = .malformed name (.uncutCycle id)) ∧ ¬ f.HeadsCut) := by
  refine ⟨exists_build_iff, fun f hf => ?_⟩
  have htold := asTold_of_build hf
  refine ⟨htold, fun hentry hexit hcalls predicates err herr => ?_⟩
  obtain ⟨hok, honly⟩ := htold.validate (exists_build_iff.1 ⟨f, hf⟩) hentry hexit hcalls predicates
  refine ⟨?_, fun hcut => ?_⟩
  · rw [← htold.name_eq]
    exact honly err herr
  · cases (hok hcut).symm.trans herr

namespace Spin

def x : Var := ⟨"x", .int⟩

/-- The first edge is added before its target, and the second one leads from a location back to
it. -/
def ops : List Op :=
  [.entry [] [], .edge 0 1 (.assign x (.int 0)), .parameter x, .plain, .edge 1 1 (.assume .tt),
    .exit [], .edge 1 2 (.assert .tt), .result x]

def procedure : Procedure :=
  ⟨"spin", [x], [x], 0, 2,
    [⟨.entry [] [], [⟨1, .assign x (.int 0)⟩]⟩, ⟨.plain, [⟨1, .assume .tt⟩, ⟨2, .assert .tt⟩]⟩,
    ⟨.exit [], []⟩]⟩

end Spin

theorem build_exact_spin :
    Complete Spin.ops ∧ (run "spin" Spin.ops).build = .ok Spin.procedure ∧
    AsTold "spin" Spin.ops Spin.procedure ∧
    Program.validate ⟨[], [Spin.procedure]⟩ = .error (.malformed "spin" (.uncutCycle 1)) ∧
    ¬ Spin.procedure.HeadsCut := by
  have hbuild : (run "spin" Spin.ops).build = .ok Spin.procedure := rfl
  have herr : Program.validate ⟨[], [Spin.procedure]⟩ =
      .error (.malformed "spin" (.uncutCycle 1)) := rfl
  have hcalls : ∀ source target s, Op.edge source target s ∈ Spin.ops → s.isCall = false := by
    intro source target s h
    simp only [Spin.ops, List.mem_cons, Op.edge.injEq, List.not_mem_nil, or_false, reduceCtorEq,
      false_or] at h
    rcases h with ⟨-, -, rfl⟩ | ⟨-, -, rfl⟩ | ⟨-, -, rfl⟩ <;> rfl
  obtain ⟨hiff, hall⟩ := build_exact "spin" Spin.ops
  obtain ⟨htold, hvalidate⟩ := hall Spin.procedure hbuild
  exact ⟨hiff.1 ⟨_, hbuild⟩, hbuild, htold, herr, (hvalidate rfl rfl hcalls [] _ herr).2⟩

end Builder

end Cutpoint
