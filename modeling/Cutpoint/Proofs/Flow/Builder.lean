import Mathlib.Data.List.Induction
import Cutpoint.Flow.Builder
import Cutpoint.Proofs.Flow.WellFormed

/-!
# What a builder was told

* `Builder.Op`: what a builder can be told, and `Builder.run name ops`: the builder that was told
  `ops`, one after the other;
* `Builder.perform_…`: what one operation does to each part of a builder, and `Builder.run_…`: what
  all of them did;
* `Builder.Latest name p ops id`: the number `id` was returned by the last of the operations `p`;
* `Builder.Complete ops`: entry and exit were added, and all ends of edges are there, sources when
  their edges were added; a procedure is built exactly then (`Builder.exists_build_iff`);
* `Builder.AsTold name ops f`: the procedure has the locations, edges, parameters and results of
  `ops`, in their order; that is the one that is built (`Builder.asTold_of_build`).
-/

set_option autoImplicit false

namespace Cutpoint

namespace Builder

/-! ## Operations -/

inductive Op where
  | entry (conditions rankings : List Expr)
  | exit (conditions : List Expr)
  | loopHead (invariants rankings : List Expr)
  | plain
  | edge (source target : Nat) (statement : Statement)
  | parameter (v : Var)
  | result (v : Var)

namespace Op

def isEntry : Op → Bool
  | entry _ _ => true
  | _ => false

def isExit : Op → Bool
  | exit _ => true
  | _ => false

/-- The kind of the location that is added. -/
def kind? : Op → Option Location.Kind
  | entry cs rs => some (.entry cs rs)
  | exit cs => some (.exit cs)
  | loopHead is rs => some (.loopHead is rs)
  | plain => some .plain
  | _ => none

theorem exists_kind_of_isEntry {op : Op} (h : op.isEntry = true) :
    ∃ kind, op.kind? = some kind := by
  cases op with
  | entry cs rs => exact ⟨_, rfl⟩
  | _ => cases h

theorem exists_kind_of_isExit {op : Op} (h : op.isExit = true) : ∃ kind, op.kind? = some kind := by
  cases op with
  | exit cs => exact ⟨_, rfl⟩
  | _ => cases h

/-- The edge that is added to the location `id`. -/
def edgeFrom? (id : Nat) : Op → Option Edge
  | edge source target s => if source = id then some ⟨target, s⟩ else none
  | _ => none

def parameter? : Op → Option Var
  | parameter v => some v
  | _ => none

def result? : Op → Option Var
  | result v => some v
  | _ => none

/-- The kinds of the locations that are added, in this order. -/
def kinds (ops : List Op) : List Location.Kind := ops.filterMap kind?

end Op

/-- Performs one operation. Operations that add a location return its number. -/
def perform (b : Builder) : Op → Option Nat × Builder
  | .entry cs rs => (b.addEntry cs rs).map some id
  | .exit cs => (b.addExit cs).map some id
  | .loopHead is rs => (b.addLoopHead is rs).map some id
  | .plain => b.addPlain.map some id
  | .edge source target s => (none, b.addEdge source target s)
  | .parameter v => (none, b.addParameter v)
  | .result v => (none, b.addResult v)

/-- The builder that was told the operations, from the first to the last. -/
def run (name : String) (ops : List Op) : Builder :=
  ops.foldl (fun b op => (b.perform op).2) { name }

theorem run_concat (name : String) (ops : List Op) (op : Op) :
    run name (ops ++ [op]) = ((run name ops).perform op).2 := by
  rw [run, List.foldl_append]
  rfl

/-! ## One operation -/

section Perform
variable (b : Builder) (op : Op)

/-- Edges leave all parts but the locations and the edge to remember as they are. -/
theorem addEdge_eq (source target : Nat) (s : Statement) :
    ∃ ls d, b.addEdge source target s = { b with locations := ls, dangling := d } := by
  unfold addEdge
  split
  · exact ⟨_, _, rfl⟩
  · exact ⟨_, _, rfl⟩

theorem perform_name : (b.perform op).2.name = b.name := by
  cases op with
  | edge source target s =>
    obtain ⟨ls, d, h⟩ := b.addEdge_eq source target s
    show (b.addEdge source target s).name = b.name
    rw [h]
  | _ => rfl

theorem perform_parameters :
    (b.perform op).2.parameters = b.parameters ++ op.parameter?.toList := by
  cases op with
  | edge source target s =>
    obtain ⟨ls, d, h⟩ := b.addEdge_eq source target s
    show (b.addEdge source target s).parameters = b.parameters ++ []
    rw [h, List.append_nil]
  | parameter v => rfl
  | _ => exact (List.append_nil _).symm

theorem perform_results : (b.perform op).2.results = b.results ++ op.result?.toList := by
  cases op with
  | edge source target s =>
    obtain ⟨ls, d, h⟩ := b.addEdge_eq source target s
    show (b.addEdge source target s).results = b.results ++ []
    rw [h, List.append_nil]
  | result v => rfl
  | _ => exact (List.append_nil _).symm

theorem perform_entry :
    (b.perform op).2.entry = if op.isEntry then some b.locations.length else b.entry := by
  cases op with
  | edge source target s =>
    obtain ⟨ls, d, h⟩ := b.addEdge_eq source target s
    show (b.addEdge source target s).entry = b.entry
    rw [h]
  | _ => rfl

theorem perform_exit :
    (b.perform op).2.exit = if op.isExit then some b.locations.length else b.exit := by
  cases op with
  | edge source target s =>
    obtain ⟨ls, d, h⟩ := b.addEdge_eq source target s
    show (b.addEdge source target s).exit = b.exit
    rw [h]
  | _ => rfl

theorem perform_kinds :
    (b.perform op).2.locations.map Location.kind =
      b.locations.map Location.kind ++ op.kind?.toList := by
  cases op with
  | edge source target s =>
    show (b.addEdge source target s).locations.map Location.kind =
      b.locations.map Location.kind ++ []
    unfold addEdge
    split
    · rw [List.append_nil]
      refine List.ext_getElem? fun i => ?_
      rw [List.getElem?_map, List.getElem?_map, List.getElem?_modify, Option.map_eq_map,
        Option.map_map]
      congr 1
      funext l
      show (if source = i then _ else l).kind = l.kind
      split <;> rfl
    · exact (List.append_nil _).symm
  | parameter v | result v => exact (List.append_nil _).symm
  | _ => exact List.map_append

/-- A location is returned by its number. -/
theorem perform_id {kind : Location.Kind} (h : op.kind? = some kind) :
    (b.perform op).1 = some b.locations.length := by
  cases op with
  | edge source target s | parameter v | result v => cases h
  | _ => rfl

/-- An edge is remembered if its source is not there. -/
theorem perform_dangling :
    (b.perform op).2.dangling = none ↔ b.dangling = none ∧
      ∀ source target s, op = .edge source target s → source < b.locations.length := by
  cases op with
  | edge source target s =>
    show (b.addEdge source target s).dangling = none ↔ _
    unfold addEdge
    split
    · next hlt =>
      refine ⟨fun h => ⟨h, ?_⟩, And.left⟩
      rintro _ _ _ ⟨⟩
      exact hlt
    · next hlt =>
      constructor
      · intro h
        cases hb : b.dangling <;> simp [hb] at h
      · rintro ⟨-, h⟩
        exact absurd (h source target s rfl) hlt
  | _ => exact ⟨fun h => ⟨h, nofun⟩, And.left⟩

/-- The edges out of a location, none where there is no location. -/
def edgesAt (b : Builder) (id : Nat) : List Edge := (b.locations[id]?.map Location.edges).getD []

theorem edgesAt_add (kind : Location.Kind) (id : Nat) :
    (b.add kind).2.edgesAt id = b.edgesAt id := by
  show ((b.locations ++ [⟨kind, []⟩])[id]?.map Location.edges).getD [] = _
  rw [List.getElem?_append, edgesAt]
  split
  · rfl
  · next hlt =>
    rw [List.getElem?_eq_none (Nat.le_of_not_lt hlt)]
    cases h : ([⟨kind, []⟩] : List Location)[id - b.locations.length]? with
    | none => rfl
    | some l =>
      obtain rfl := List.mem_singleton.1 (List.mem_of_getElem? h)
      rfl

theorem perform_edgesAt (h : (b.perform op).2.dangling = none) (id : Nat) :
    (b.perform op).2.edgesAt id = b.edgesAt id ++ (op.edgeFrom? id).toList := by
  cases op with
  | edge source target s =>
    have hlt : source < b.locations.length := ((b.perform_dangling _).1 h).2 source target s rfl
    show (b.addEdge source target s).edgesAt id = b.edgesAt id ++
      (if source = id then some _ else none).toList
    rw [addEdge, if_pos hlt]
    show ((b.locations.modify source _)[id]?.map Location.edges).getD [] = _
    rw [List.getElem?_modify, edgesAt]
    by_cases hid : source = id
    · subst hid
      rw [List.getElem?_eq_getElem hlt]
      simp
    · simp [hid]
  | parameter v | result v => exact (List.append_nil _).symm
  | _ =>
    rw [show (Op.edgeFrom? id _).toList = [] from rfl, List.append_nil]
    exact b.edgesAt_add _ id

end Perform

/-! ## All operations -/

section Run
variable (name : String)

theorem filterMap_concat {α β : Type} (g : α → Option β) (as : List α) (a : α) :
    (as ++ [a]).filterMap g = as.filterMap g ++ (g a).toList := by
  rw [List.filterMap_append, List.filterMap_cons, List.filterMap_nil]
  cases g a <;> rfl

/-- One of the operations is the last one, or comes before it. -/
theorem concat_eq_append_cons {ops before after : List Op} {op o : Op}
    (h : ops ++ [op] = before ++ o :: after) :
    (after = [] ∧ before = ops ∧ o = op) ∨
    ∃ rest, after = rest ++ [op] ∧ ops = before ++ o :: rest := by
  rcases List.eq_nil_or_concat after with rfl | ⟨rest, last, rfl⟩
  · obtain ⟨rfl, hlast⟩ := List.append_inj' h rfl
    exact .inl ⟨rfl, rfl, (List.cons.inj hlast).1.symm⟩
  · rw [List.concat_eq_append, ← List.cons_append, ← List.append_assoc] at h
    obtain ⟨rfl, hlast⟩ := List.append_inj' h rfl
    exact .inr ⟨rest, by rw [List.concat_eq_append, hlast], rfl⟩

theorem run_name (ops : List Op) : (run name ops).name = name := by
  induction ops using List.reverseRecOn with
  | nil => rfl
  | append_singleton ops op ih => rw [run_concat, perform_name, ih]

theorem run_parameters (ops : List Op) :
    (run name ops).parameters = ops.filterMap Op.parameter? := by
  induction ops using List.reverseRecOn with
  | nil => rfl
  | append_singleton ops op ih => rw [run_concat, perform_parameters, ih, filterMap_concat]

theorem run_results (ops : List Op) : (run name ops).results = ops.filterMap Op.result? := by
  induction ops using List.reverseRecOn with
  | nil => rfl
  | append_singleton ops op ih => rw [run_concat, perform_results, ih, filterMap_concat]

theorem run_kinds (ops : List Op) : (run name ops).locations.map Location.kind = Op.kinds ops := by
  induction ops using List.reverseRecOn with
  | nil => rfl
  | append_singleton ops op ih =>
    rw [run_concat, perform_kinds, ih, Op.kinds, Op.kinds, filterMap_concat]

theorem length_run (ops : List Op) : (run name ops).locations.length = (Op.kinds ops).length := by
  rw [← run_kinds name ops, List.length_map]

/-- The source of every edge is there when the edge is added. -/
def Sourced (ops : List Op) : Prop :=
  ∀ before source target s after, ops = before ++ .edge source target s :: after →
    source < (Op.kinds before).length

theorem sourced_concat {ops : List Op} {op : Op} :
    Sourced (ops ++ [op]) ↔ Sourced ops ∧
      ∀ source target s, op = .edge source target s → source < (Op.kinds ops).length := by
  constructor
  · intro h
    refine ⟨fun before source target s after hops => h before source target s (after ++ [op]) ?_,
      fun source target s hop => h ops source target s [] (by rw [hop])⟩
    rw [hops, List.append_assoc, List.cons_append]
  · rintro ⟨hops, hop⟩ before source target s after h
    rcases concat_eq_append_cons h with ⟨-, rfl, hlast⟩ | ⟨rest, -, hrest⟩
    · exact hop source target s hlast.symm
    · exact hops before source target s rest hrest

theorem run_dangling (ops : List Op) : (run name ops).dangling = none ↔ Sourced ops := by
  induction ops using List.reverseRecOn with
  | nil => exact ⟨fun _ before source target s after h => absurd h (by simp), fun _ => rfl⟩
  | append_singleton ops op ih => rw [run_concat, perform_dangling, ih, sourced_concat, length_run]

theorem run_edgesAt {ops : List Op} (h : Sourced ops) (id : Nat) :
    (run name ops).edgesAt id = ops.filterMap (Op.edgeFrom? id) := by
  induction ops using List.reverseRecOn with
  | nil => rfl
  | append_singleton ops op ih =>
    have hdangling := (run_dangling name _).2 h
    rw [run_concat] at hdangling
    rw [run_concat, perform_edgesAt _ _ hdangling, ih (sourced_concat.1 h).1, filterMap_concat]

theorem run_locations {ops : List Op} (h : Sourced ops) :
    (run name ops).locations =
      (Op.kinds ops).mapIdx fun id kind => ⟨kind, ops.filterMap (Op.edgeFrom? id)⟩ := by
  refine List.ext_getElem? fun id => ?_
  have hedges := run_edgesAt name h id
  rw [edgesAt] at hedges
  rw [List.getElem?_mapIdx, ← run_kinds name ops, List.getElem?_map]
  cases hl : (run name ops).locations[id]? with
  | none => rfl
  | some l =>
    rw [hl] at hedges
    show some l = some ⟨l.kind, _⟩
    rw [← hedges]
    rfl

/-! ## The latest entry and exit -/

/-- The number `id` was returned by the last of the operations that are of a kind. -/
def Latest (p : Op → Bool) (ops : List Op) (id : Nat) : Prop :=
  ∃ before op after, ops = before ++ op :: after ∧ p op = true ∧ (∀ o ∈ after, p o = false) ∧
    ((run name before).perform op).1 = some id

variable {name} {p : Op → Bool} {ops : List Op} {op : Op} {id : Nat}

theorem latest_concat_of_pos (h : p op = true) :
    Latest name p (ops ++ [op]) id ↔ ((run name ops).perform op).1 = some id := by
  constructor
  · rintro ⟨before, o, after, hops, ho, hafter, hid⟩
    rcases concat_eq_append_cons hops with ⟨-, rfl, rfl⟩ | ⟨rest, rfl, -⟩
    · exact hid
    · rw [hafter op (by simp)] at h
      cases h
  · intro hid
    exact ⟨ops, op, [], rfl, h, by simp, hid⟩

theorem latest_concat_of_neg (h : p op = false) :
    Latest name p (ops ++ [op]) id ↔ Latest name p ops id := by
  constructor
  · rintro ⟨before, o, after, hops, ho, hafter, hid⟩
    rcases concat_eq_append_cons hops with ⟨-, rfl, rfl⟩ | ⟨rest, rfl, hrest⟩
    · rw [h] at ho
      cases ho
    · exact ⟨before, o, rest, hrest, ho, fun a ha => hafter a (by simp [ha]), hid⟩
  · rintro ⟨before, o, after, rfl, ho, hafter, hid⟩
    refine ⟨before, o, after ++ [op], by simp, ho, fun a ha => ?_, hid⟩
    rcases List.mem_append.1 ha with ha | ha
    · exact hafter a ha
    · rw [List.mem_singleton.1 ha, h]

section
variable (hp : ∀ op, p op = true → ∃ kind, op.kind? = some kind)
include hp

theorem exists_latest : (∃ id, Latest name p ops id) ↔ ∃ op ∈ ops, p op = true := by
  constructor
  · rintro ⟨id, before, op, after, rfl, hop, -⟩
    exact ⟨op, by simp, hop⟩
  · rintro ⟨op, hop, hpos⟩
    induction ops using List.reverseRecOn with
    | nil => cases hop
    | append_singleton ops last ih =>
      cases hlast : p last with
      | true =>
        obtain ⟨kind, hkind⟩ := hp last hlast
        exact ⟨_, (latest_concat_of_pos hlast).2 (perform_id _ _ hkind)⟩
      | false =>
        rcases List.mem_append.1 hop with hmem | hmem
        · exact (ih hmem).imp fun id hid => (latest_concat_of_neg hlast).2 hid
        · rw [List.mem_singleton.1 hmem, hlast] at hpos
          cases hpos

/-- A part of the builder that every operation of a kind sets to the number it returns, and no other
operation changes. -/
theorem run_latest {part : Builder → Option Nat} (hstart : part { name } = none)
    (hstep : ∀ b op, part (perform b op).2 = if p op then some b.locations.length else part b) :
    part (run name ops) = some id ↔ Latest name p ops id := by
  induction ops using List.reverseRecOn with
  | nil =>
    refine iff_of_false (fun h => ?_) fun ⟨before, op, after, h, _⟩ => absurd h (by simp)
    cases hstart.symm.trans h
  | append_singleton ops op ih =>
    rw [run_concat, hstep]
    cases h : p op with
    | true =>
      obtain ⟨kind, hkind⟩ := hp op h
      rw [latest_concat_of_pos h, perform_id _ _ hkind, if_pos rfl]
    | false => rw [latest_concat_of_neg h, if_neg Bool.false_ne_true, ih]

end

theorem run_entry : (run name ops).entry = some id ↔ Latest name Op.isEntry ops id :=
  run_latest (fun _ => Op.exists_kind_of_isEntry) rfl perform_entry

theorem run_exit : (run name ops).exit = some id ↔ Latest name Op.isExit ops id :=
  run_latest (fun _ => Op.exists_kind_of_isExit) rfl perform_exit

end Run

/-! ## Building -/

theorem findDangling_eq_none {bound id : Nat} {ls : List Location} :
    findDangling bound id ls = none ↔ ∀ l ∈ ls, ∀ e ∈ l.edges, e.target < bound := by
  induction ls generalizing id with
  | nil => exact ⟨fun _ l hl => absurd hl List.not_mem_nil, fun _ => rfl⟩
  | cons l ls ih =>
    rw [findDangling, List.forall_mem_cons]
    cases hfind : l.edges.find? fun e => bound ≤ e.target with
    | none =>
      have hl : ∀ e ∈ l.edges, e.target < bound :=
        fun e he => by simpa using List.find?_eq_none.1 hfind e he
      exact ih.trans (iff_and_self.2 fun _ => hl)
    | some e =>
      have he : bound ≤ e.target := by simpa using List.find?_some hfind
      refine ⟨nofun, fun h => ?_⟩
      have := h.1 e (List.mem_of_find?_eq_some hfind)
      omega

/-- A procedure is built if no edge is left over, all targets are there, and so are entry and
exit. -/
theorem build_eq_ok {b : Builder} {f : Procedure} :
    b.build = .ok f ↔
      b.dangling = none ∧ (∀ l ∈ b.locations, ∀ e ∈ l.edges, e.target < b.locations.length) ∧
        ∃ entry exit, b.entry = some entry ∧ b.exit = some exit ∧
          f = ⟨b.name, b.parameters, b.results, entry, exit, b.locations⟩ := by
  rw [← @findDangling_eq_none b.locations.length 0]
  unfold build
  cases b.dangling with
  | some d => simp
  | none =>
    cases findDangling b.locations.length 0 b.locations with
    | some d => simp
    | none =>
      cases b.entry with
      | none => simp
      | some entry =>
        cases b.exit with
        | none => simp
        | some exit => simp [eq_comm]

/-- Entry and exit are added, and so are all ends of edges: a source before its edges, a target at
any time. -/
structure Complete (ops : List Op) : Prop where
  entry : ∃ op ∈ ops, op.isEntry = true
  exit : ∃ op ∈ ops, op.isExit = true
  source : Sourced ops
  target : ∀ source target s, Op.edge source target s ∈ ops → target < (Op.kinds ops).length

/-- The procedure has what the operations added, in their order: locations under the numbers that
were returned, at each location the edges that were added to it, parameters and results; its entry
and its exit are the latest ones. -/
structure AsTold (name : String) (ops : List Op) (f : Procedure) : Prop where
  name_eq : f.name = name
  parameters_eq : f.parameters = ops.filterMap Op.parameter?
  results_eq : f.results = ops.filterMap Op.result?
  locations_eq : f.locations = (Op.kinds ops).mapIdx fun id kind =>
    ⟨kind, ops.filterMap (Op.edgeFrom? id)⟩
  ids : ∀ before op after kind, ops = before ++ op :: after → op.kind? = some kind →
    ∃ id, ((run name before).perform op).1 = some id ∧
    f.locations[id]? = some ⟨kind, ops.filterMap (Op.edgeFrom? id)⟩
  entry : Latest name Op.isEntry ops f.entry
  exit : Latest name Op.isExit ops f.exit

section Build
variable {name : String} {ops : List Op} {f : Procedure}

theorem kinds_append_cons {before after : List Op} {op : Op}
    {kind : Location.Kind} (h : op.kind? = some kind) :
    Op.kinds (before ++ op :: after) = Op.kinds before ++ kind :: Op.kinds after := by
  rw [Op.kinds, List.filterMap_append, List.filterMap_cons_some h]
  rfl

theorem Sourced.lt (h : Sourced ops) {source target : Nat} {s : Statement}
    (he : Op.edge source target s ∈ ops) : source < (Op.kinds ops).length := by
  obtain ⟨before, after, hops⟩ := List.append_of_mem he
  have hlt := h before source target s after hops
  have hle : (Op.kinds before).length ≤ (Op.kinds ops).length := by
    rw [hops, Op.kinds, Op.kinds, List.filterMap_append, List.length_append]
    exact Nat.le_add_right _ _
  omega

theorem mem_filterMap_edgeFrom? {id : Nat} {e : Edge} :
    e ∈ ops.filterMap (Op.edgeFrom? id) ↔ Op.edge id e.target e.statement ∈ ops := by
  rw [List.mem_filterMap]
  constructor
  · rintro ⟨op, hop, he⟩
    cases op with
    | edge source target s =>
      rw [Op.edgeFrom?] at he
      split at he
      · next hid =>
        cases he
        exact hid ▸ hop
      · cases he
    | _ => cases he
  · intro he
    exact ⟨_, he, if_pos rfl⟩

/-- All edges that were added have targets if all edges at the locations do. -/
theorem targets_iff (h : Sourced ops) :
    (∀ l ∈ (run name ops).locations, ∀ e ∈ l.edges, e.target < (run name ops).locations.length) ↔
      ∀ source target s, Op.edge source target s ∈ ops → target < (Op.kinds ops).length := by
  rw [length_run, run_locations name h]
  constructor
  · intro hl source target s he
    have hmem : ⟨(Op.kinds ops).get ⟨source, h.lt he⟩, ops.filterMap (Op.edgeFrom? source)⟩ ∈
        (Op.kinds ops).mapIdx fun id kind => (⟨kind, ops.filterMap (Op.edgeFrom? id)⟩ : Location) :=
      List.mem_mapIdx.2 ⟨source, h.lt he, rfl⟩
    exact hl _ hmem ⟨target, s⟩ (mem_filterMap_edgeFrom?.2 he)
  · intro hops l hl e he
    obtain ⟨id, hid, rfl⟩ := List.mem_mapIdx.1 hl
    exact hops id e.target e.statement (mem_filterMap_edgeFrom?.1 he)

theorem exists_build_iff : (∃ f, (run name ops).build = .ok f) ↔ Complete ops := by
  have hentry : (∃ id, (run name ops).entry = some id) ↔ ∃ op ∈ ops, op.isEntry = true := by
    simp only [run_entry]
    exact exists_latest fun _ => Op.exists_kind_of_isEntry
  have hexit : (∃ id, (run name ops).exit = some id) ↔ ∃ op ∈ ops, op.isExit = true := by
    simp only [run_exit]
    exact exists_latest fun _ => Op.exists_kind_of_isExit
  constructor
  · rintro ⟨f, hf⟩
    obtain ⟨hdangling, htargets, entry, exit, hen, hex, -⟩ := build_eq_ok.1 hf
    have hsourced := (run_dangling name ops).1 hdangling
    exact ⟨hentry.1 ⟨entry, hen⟩, hexit.1 ⟨exit, hex⟩, hsourced, (targets_iff hsourced).1 htargets⟩
  · intro h
    obtain ⟨entry, hen⟩ := hentry.2 h.entry
    obtain ⟨exit, hex⟩ := hexit.2 h.exit
    exact ⟨_, build_eq_ok.2 ⟨(run_dangling name ops).2 h.source, (targets_iff h.source).2 h.target,
      entry, exit, hen, hex, rfl⟩⟩

theorem asTold_of_build (h : (run name ops).build = .ok f) : AsTold name ops f := by
  obtain ⟨hdangling, -, entry, exit, hentry, hexit, rfl⟩ := build_eq_ok.1 h
  have hlocations := run_locations name ((run_dangling name ops).1 hdangling)
  refine ⟨run_name name ops, run_parameters name ops, run_results name ops, hlocations, ?_,
    run_entry.1 hentry, run_exit.1 hexit⟩
  intro before op after kind hops hkind
  refine ⟨_, perform_id _ _ hkind, ?_⟩
  show (run name ops).locations[_]? = _
  rw [hlocations, List.getElem?_mapIdx, length_run, hops, kinds_append_cons hkind,
    List.getElem?_append_right (Nat.le_refl _), Nat.sub_self]
  rfl

end Build

end Builder

end Cutpoint
