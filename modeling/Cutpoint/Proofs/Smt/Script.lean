import Mathlib.Data.List.Nodup
import Cutpoint.Proofs.Smt.Declare
import Cutpoint.Proofs.Solver.Reach
import Cutpoint.Smt.Script

/-!
# Scripts are closed

What a script declares and defines is seen from its commands, read back from the text: `Smt.const?`,
`Smt.function?`, `Smt.definition?` and `Smt.assertion?` are the parts of one command.

* `Smt.Theory.attempts`: the theory after a sequence of definitions, of which some may have failed,
  and those that have not, the latest first;
* `Smt.Theory.Records`: what a theory holds of its definitions, kept by every one (`Records.define`)
  and so by every sequence (`records_attempts`);
* `Smt.query_closed`: in every script the variables and length functions are declared and the
  predicates defined that it needs, each once.
-/

set_option autoImplicit false

namespace Cutpoint.Smt

/-! ## Commands -/

/-- The constant that a command declares, with its sort. -/
def const? : SExp → Option (String × SExp)
  | .list [.atom c, .atom s, u] => if c = "declare-const" then some (s, u) else none
  | _ => none

/-- The function that a command declares. -/
def function? : SExp → Option String
  | .list [.atom c, .atom s, .list _, _] => if c = "declare-fun" then some s else none
  | _ => none

/-- The function that a command defines. -/
def definition? : SExp → Option String
  | .list [.atom c, .atom s, .list _, _, _] => if c = "define-fun" then some s else none
  | _ => none

/-- What a command asserts. -/
def assertion? : SExp → Option SExp
  | .list [.atom c, u] => if c = "assert" then some u else none
  | _ => none

/-- The declaration of the length function of arrays of `ty`. -/
def lengthCommand (ty : Ty) : SExp :=
  .app "declare-fun" [.atom (lengthName ty), .list [sort (.array ty)], .atom "Int"]

/-- The definition of a predicate with the symbol `s`. -/
def definitionCommand (s : String) (params : List SExp) (b : SExp) : SExp :=
  .app "define-fun" [.atom s, .list params, .atom "Bool", b]

/-- The assertion that `t` is false. -/
def refutation (t : SExp) : SExp := .app "assert" [.app "not" [t]]

/-- The command that defines a predicate, with its parts. The variables of the body are parameters
or bound in it. -/
structure IsDefinition (p : Predicate) (s : String) (params : List SExp) (b : SExp) : Prop where
  symbol : symbol? p.name = some s
  parameters : binders p.parameters = .ok params
  body : Encodes p.body b
  closed : ∀ v, ¬ Somewhere (Unbound v) (Var.names p.parameters) p.body b

/-- The length functions of `Q` are declared before a command `c`, which stands in the list. -/
def DeclaredBefore (cmds : List SExp) (c : SExp) (Q : Ty → Prop) : Prop :=
  ∃ before after, cmds = before ++ c :: after ∧ ∀ ty, Q ty → lengthCommand ty ∈ before

theorem DeclaredBefore.imp {cmds : List SExp} {c : SExp} {Q Q' : Ty → Prop}
    (h : DeclaredBefore cmds c Q) (hQ : ∀ ty, Q' ty → Q ty) : DeclaredBefore cmds c Q' := by
  obtain ⟨before, after, hsplit, hbefore⟩ := h
  exact ⟨before, after, hsplit, fun ty hty => hbefore ty (hQ ty hty)⟩

/-- The commands declare and define what they use: `t` is the term of the expression `e` that is
asked about, and `ps` are the predicates. -/
structure Closed (ps : Predicates) (e : Expr) (t : SExp) (cmds : List SExp) : Prop where
  /-- The constants are the variables that are unbound in the term, at their sorts. -/
  consts : ∀ s u, (s, u) ∈ cmds.filterMap const? ↔ ∃ v, Somewhere (Unbound v) [] e t ∧
    symbol? v.name = some s ∧ u = sort v.ty
  constsOnce : ((cmds.filterMap const?).map Prod.fst).Nodup
  oneSort : ∀ v w, Somewhere (Unbound v) [] e t → Somewhere (Unbound w) [] e t →
    v.name = w.name → v.ty = w.ty
  /-- One term is asserted to be false, after the declarations of its length functions. -/
  asserted : cmds.filterMap assertion? = [.app "not" [t]] ∧ Encodes e t ∧
    DeclaredBefore cmds (refutation t) fun ty => Somewhere (Measures ty) [] e t
  /-- Every predicate has the definition that its latest form gives, after the declarations of its
  length functions. -/
  defined : ∀ x p, ps.find? x = some p → ∃ s params b, IsDefinition p s params b ∧
    DeclaredBefore cmds (definitionCommand s params b) fun ty =>
    Somewhere (Measures ty) (Var.names p.parameters) p.body b
  /-- Nothing else is defined. -/
  definedOnly : ∀ s ∈ cmds.filterMap definition?, ∃ x p, ps.find? x = some p ∧ symbol? x = some s
  functionsOnce : (cmds.filterMap function?).Nodup
  definitionsOnce : (cmds.filterMap definition?).Nodup

/-! ## Histories -/

namespace Theory

/-- The state after one more definition, which is unchanged if it fails. -/
def attempt (st : Theory × Predicates) (p : Predicate) : Theory × Predicates :=
  match st.1.define p with
  | .ok th => (th, st.2.define p)
  | .error _ => st

/-- The theory after a sequence of definitions, and the predicates whose definition succeeded, the
latest first. -/
def attempts (ps : List Predicate) : Theory × Predicates := ps.foldl attempt ({}, [])

end Theory

theorem Predicates.find?_define (ps : Predicates) (p : Predicate) (x : String) :
    (ps.define p).find? x = if p.name = x then some p else ps.find? x := by
  unfold Predicates.find? Predicates.define
  by_cases h : p.name = x <;> simp [h]

section ReplaceOrAdd
variable {n x : String} {c c' : SExp} {ds : List (String × SExp)}

theorem map_fst_replaceOrAdd (n : String) (c : SExp) (ds : List (String × SExp)) :
    (replaceOrAdd n c ds).map Prod.fst = if n ∈ ds.map Prod.fst then ds.map Prod.fst
      else ds.map Prod.fst ++ [n] := by
  induction ds with
  | nil => rfl
  | cons d ds ih =>
    obtain ⟨m, b⟩ := d
    unfold replaceOrAdd
    by_cases hm : m = n
    · simp [hm]
    · rw [if_neg hm, List.map_cons, List.map_cons, ih]
      by_cases hn : n ∈ ds.map Prod.fst
      · rw [if_pos hn, if_pos (List.mem_cons_of_mem _ hn)]
      · rw [if_neg hn, if_neg fun h => (List.mem_cons.1 h).elim (Ne.symm hm) hn]
        rfl

theorem nodup_replaceOrAdd (h : (ds.map Prod.fst).Nodup) :
    ((replaceOrAdd n c ds).map Prod.fst).Nodup := by
  rw [map_fst_replaceOrAdd]
  split
  · exact h
  · next hn =>
    refine List.nodup_append.2 ⟨h, List.nodup_singleton n, fun x hx y hy hxy => hn ?_⟩
    rwa [← List.mem_singleton.1 hy, ← hxy]

theorem mem_map_fst_replaceOrAdd :
    x ∈ (replaceOrAdd n c ds).map Prod.fst ↔ x = n ∨ x ∈ ds.map Prod.fst := by
  rw [map_fst_replaceOrAdd]
  split
  · next hn => exact ⟨.inr, fun h => h.elim (fun hx => hx ▸ hn) id⟩
  · rw [List.mem_append, List.mem_singleton, or_comm]

/-- The other definitions stay as they are. -/
theorem mem_replaceOrAdd (hnodup : (ds.map Prod.fst).Nodup) (h : (x, c') ∈ replaceOrAdd n c ds) :
    (x = n ∧ c' = c) ∨ (x ≠ n ∧ (x, c') ∈ ds) := by
  induction ds with
  | nil =>
    obtain ⟨rfl, rfl⟩ := Prod.mk.inj (List.mem_singleton.1 h)
    exact .inl ⟨rfl, rfl⟩
  | cons d ds ih =>
    obtain ⟨m, b⟩ := d
    obtain ⟨hm, hds⟩ := List.nodup_cons.1 hnodup
    unfold replaceOrAdd at h
    split at h
    · next hmn =>
      subst hmn
      rcases List.mem_cons.1 h with heq | h
      · obtain ⟨rfl, rfl⟩ := Prod.mk.inj heq
        exact .inl ⟨rfl, rfl⟩
      · have hx : x ∈ ds.map Prod.fst := List.mem_map_of_mem h
        refine .inr ⟨?_, List.mem_cons_of_mem _ h⟩
        rintro rfl
        exact hm hx
    · next hmn =>
      rcases List.mem_cons.1 h with heq | h
      · obtain ⟨rfl, rfl⟩ := Prod.mk.inj heq
        exact .inr ⟨hmn, List.mem_cons_self⟩
      · exact (ih hds h).imp_right fun h => ⟨h.1, List.mem_cons_of_mem _ h.2⟩

end ReplaceOrAdd

namespace Theory
variable {th th' : Theory} {ps : Predicates} {p : Predicate}

/-- What a theory holds of the predicates that have been defined. -/
structure Records (th : Theory) (ps : Predicates) : Prop where
  once : (th.definitions.map Prod.fst).Nodup
  sorted : th.lengths.Sorted
  ofLengths : th.lengths.OfLengths
  /-- A command is that of the latest definition, and the length functions in it are known. -/
  latest : ∀ x c, (x, c) ∈ th.definitions → ∃ p s params b, ps.find? x = some p ∧
    IsDefinition p s params b ∧
    c = definitionCommand s params b ∧
    ∀ ty, Somewhere (Measures ty) (Var.names p.parameters) p.body b →
    th.lengths.find? (lengthName ty) = some (.array ty)
  registered : ∀ x p, ps.find? x = some p → x ∈ th.definitions.map Prod.fst

theorem records_empty : Records {} [] where
  once := List.nodup_nil
  sorted := List.Pairwise.nil
  ofLengths _ _ h := by cases h
  latest _ _ h := by cases h
  registered _ _ h := by cases h

/-- A definition that succeeds. -/
theorem define_eq_ok (h : th.define p = .ok th') (hlengths : th.lengths.OfLengths) :
    ∃ s params b, IsDefinition p s params b ∧
      th'.definitions = replaceOrAdd p.name (definitionCommand s params b) th.definitions ∧
      (th.lengths.Sorted → th'.lengths.Sorted) ∧
      ∀ k ty, th'.lengths.find? k = some ty ↔ th.lengths.find? k = some ty ∨
        ∃ u, Somewhere (Measures u) (Var.names p.parameters) p.body b ∧ k = lengthName u ∧
          ty = .array u := by
  unfold define at h
  obtain ⟨⟨b, d⟩, hrun, h⟩ := bind_eq_ok.1 h
  have hdeclares := declares_of_encode hrun
  dsimp only at h
  split at h
  · cases h
  · next hconsts =>
    obtain ⟨s, hs, h⟩ := bind_eq_ok.1 h
    obtain ⟨params, hparams, h⟩ := bind_eq_ok.1 h
    obtain rfl := Except.ok.inj h
    refine ⟨s, params, b, ⟨symbol_eq_ok.1 hs, hparams, encodes_of_encode hrun, fun v hv => ?_⟩, rfl,
      hdeclares.lengthsSorted, hdeclares.lengths hlengths⟩
    have hfind := (hdeclares.consts v.name v.ty).2 (.inr hv)
    rw [hconsts] at hfind
    cases hfind

/-- A definition that succeeds takes the place of earlier ones of its name and leaves the others. -/
theorem Records.define (hth : Records th ps) (h : th.define p = .ok th') :
    Records th' (ps.define p) := by
  obtain ⟨s, params, b, hp, hdefs, hsorted, hlengths⟩ := define_eq_ok h hth.ofLengths
  have hkept : ∀ k ty, th.lengths.find? k = some ty → th'.lengths.find? k = some ty :=
    fun k ty hk => (hlengths k ty).2 (.inl hk)
  refine ⟨hdefs ▸ nodup_replaceOrAdd hth.once, hsorted hth.sorted, fun k ty hk => ?_,
    fun x c hc => ?_, fun x q hq => ?_⟩
  · rcases (hlengths k ty).1 hk with hk | ⟨u, -, hk⟩
    · exact hth.ofLengths k ty hk
    · exact ⟨u, hk⟩
  · rw [hdefs] at hc
    rw [Predicates.find?_define]
    rcases mem_replaceOrAdd hth.once hc with ⟨rfl, rfl⟩ | ⟨hne, hc⟩
    · refine ⟨p, s, params, b, if_pos rfl, hp, rfl, fun ty hty => ?_⟩
      exact (hlengths _ _).2 (.inr ⟨ty, hty, rfl, rfl⟩)
    · obtain ⟨q, s, params, b, hq, hdef, rfl, hmeasured⟩ := hth.latest x c hc
      exact ⟨q, s, params, b, (if_neg (Ne.symm hne)).trans hq, hdef, rfl,
        fun ty hty => hkept _ _ (hmeasured ty hty)⟩
  · rw [Predicates.find?_define] at hq
    rw [hdefs, mem_map_fst_replaceOrAdd]
    split at hq
    · next hx => exact .inl hx.symm
    · exact .inr (hth.registered x q hq)

/-- A definition that fails changes nothing. -/
theorem Records.attempt {st : Theory × Predicates} (h : Records st.1 st.2) (p : Predicate) :
    Records (attempt st p).1 (attempt st p).2 := by
  unfold Theory.attempt
  split
  · next th hth => exact h.define hth
  · exact h

theorem records_attempts (ps : List Predicate) : Records (attempts ps).1 (attempts ps).2 := by
  have hrun : ∀ (ps : List Predicate) (st : Theory × Predicates), Records st.1 st.2 →
      Records (ps.foldl Theory.attempt st).1 (ps.foldl Theory.attempt st).2 := by
    intro ps
    induction ps with
    | nil => exact fun st h => h
    | cons p ps ih => exact fun st h => ih _ (h.attempt p)
  exact hrun ps _ records_empty

/-! ## Scripts -/

variable {e : Expr} {cmds : List SExp}

theorem commands_eq_ok (h : th.commands e = .ok cmds) :
    ∃ t d consts, (encode [] e).run { lengths := th.lengths } = .ok (t, d) ∧
      constCommands d.consts = .ok consts ∧
    cmds = lengthCommands d.lengths ++ (th.definitions.map Prod.snd ++
      (consts ++ [refutation t, .app "check-sat" [], .app "get-model" []])) := by
  unfold commands at h
  obtain ⟨⟨t, d⟩, hrun, h⟩ := bind_eq_ok.1 h
  obtain ⟨consts, hconsts, h⟩ := bind_eq_ok.1 h
  obtain rfl := Except.ok.inj h
  refine ⟨t, d, consts, hrun, hconsts, ?_⟩
  simp [refutation]

/-- The constants are declared under the symbols of their names, in the order of the table. -/
theorem constCommands_eq_ok {cs : Table} {us : List SExp} (h : constCommands cs = .ok us) :
    us.filterMap const? = cs.filterMap (fun p => (symbol? p.1).map fun s => (s, sort p.2)) ∧
    ∀ u ∈ us, ∃ x s ty, symbol? x = some s ∧ u = .app "declare-const" [.atom s, sort ty] := by
  induction cs generalizing us with
  | nil =>
    obtain rfl := Except.ok.inj h
    exact ⟨rfl, by simp⟩
  | cons p cs ih =>
    obtain ⟨s, hs, h⟩ := bind_eq_ok.1 h
    obtain ⟨ws, hws, h⟩ := bind_eq_ok.1 h
    obtain rfl := Except.ok.inj h
    obtain ⟨hconst, hforms⟩ := ih hws
    have hs : symbol? p.1 = some s := symbol_eq_ok.1 hs
    have hhead : const? (.app "declare-const" [.atom s, sort p.2]) = some (s, sort p.2) := rfl
    refine ⟨?_, List.forall_mem_cons.2 ⟨⟨p.1, s, p.2, hs, rfl⟩, hforms⟩⟩
    rw [List.filterMap_cons_some hhead, hconst, List.filterMap_cons, hs]
    rfl

/-- The commands that declare length functions. -/
theorem mem_lengthCommands {lengths : Table} (hof : lengths.OfLengths)
    (hsorted : lengths.Sorted) {c : SExp} :
    c ∈ lengthCommands lengths ↔
      ∃ ty, lengths.find? (lengthName ty) = some (.array ty) ∧ c = lengthCommand ty := by
  unfold lengthCommands
  rw [List.mem_map]
  constructor
  · rintro ⟨⟨k, u⟩, hmem, rfl⟩
    obtain ⟨ty, rfl, rfl⟩ := hof k u (hsorted.mem_iff.1 hmem)
    exact ⟨ty, hsorted.mem_iff.1 hmem, rfl⟩
  · rintro ⟨ty, hty, rfl⟩
    exact ⟨(lengthName ty, .array ty), hsorted.mem_iff.2 hty, rfl⟩

/-- The predicates are defined under the symbols of their names, in the order of the theory. -/
theorem Records.filterMap_definition? (h : Records th ps) :
    (th.definitions.map Prod.snd).filterMap definition? =
      (th.definitions.map Prod.fst).filterMap symbol? := by
  rw [List.filterMap_map, List.filterMap_map]
  refine List.filterMap_congr fun d hd => ?_
  obtain ⟨x, c⟩ := d
  obtain ⟨p, s, params, b, hp, hdef, rfl, -⟩ := h.latest x c hd
  show definition? (definitionCommand s params b) = symbol? x
  rw [← Predicates.name_of_find? hp, hdef.symbol]
  rfl

/-- What can be read off the commands of a script: the declarations and definitions in their orders,
and the one assertion. Whatever is no declaration of a length function stands after all of them. -/
theorem Records.read_commands (hth : Records th ps) (h : th.commands e = .ok cmds) :
    ∃ t d, (encode [] e).run { lengths := th.lengths } = .ok (t, d) ∧
      cmds.filterMap const? = d.consts.filterMap
        (fun p => (symbol? p.1).map fun s => (s, sort p.2)) ∧
      cmds.filterMap function? = d.lengths.map Prod.fst ∧
      cmds.filterMap definition? = (th.definitions.map Prod.fst).filterMap symbol? ∧
      cmds.filterMap assertion? = [.app "not" [t]] ∧
      ∀ c, c ∈ th.definitions.map Prod.snd ∨ c = refutation t →
        DeclaredBefore cmds c fun ty => d.lengths.find? (lengthName ty) = some (.array ty) := by
  obtain ⟨t, d, consts, hrun, hconsts, rfl⟩ := commands_eq_ok h
  have hdeclares := declares_of_encode hrun
  have hlength : ∀ {c}, c ∈ lengthCommands d.lengths ↔
      ∃ ty, d.lengths.find? (lengthName ty) = some (.array ty) ∧ c = lengthCommand ty :=
    mem_lengthCommands (hdeclares.ofLengths hth.ofLengths) (hdeclares.lengthsSorted hth.sorted)
  obtain ⟨hconst, hforms⟩ := constCommands_eq_ok hconsts
  have hlengths : ∀ c ∈ lengthCommands d.lengths, const? c = none ∧ definition? c = none ∧
      assertion? c = none := by
    intro c hc
    obtain ⟨ty, -, rfl⟩ := hlength.1 hc
    exact ⟨rfl, rfl, rfl⟩
  have hdefinitions : ∀ c ∈ th.definitions.map Prod.snd, const? c = none ∧ function? c = none ∧
      assertion? c = none := by
    intro c hc
    obtain ⟨⟨x, c⟩, hd, rfl⟩ := List.mem_map.1 hc
    obtain ⟨p, s, params, b, -, -, rfl, -⟩ := hth.latest x c hd
    exact ⟨rfl, rfl, rfl⟩
  have hconstants : ∀ c ∈ consts, function? c = none ∧ definition? c = none ∧
      assertion? c = none := by
    intro c hc
    obtain ⟨x, s, ty, -, rfl⟩ := hforms c hc
    cases ty <;> exact ⟨rfl, rfl, rfl⟩
  refine ⟨t, d, hrun, ?_, ?_, ?_, ?_, fun c hc => ?_⟩
  · rw [List.filterMap_append, List.filterMap_append, List.filterMap_append,
      List.filterMap_eq_nil_iff.2 fun c hc => (hlengths c hc).1,
      List.filterMap_eq_nil_iff.2 fun c hc => (hdefinitions c hc).1, hconst]
    exact List.append_nil _
  · have hnames : (lengthCommands d.lengths).filterMap function? = d.lengths.map Prod.fst := by
      unfold lengthCommands
      rw [List.filterMap_map]
      exact congrFun List.filterMap_eq_map d.lengths
    rw [List.filterMap_append, List.filterMap_append, List.filterMap_append, hnames,
      List.filterMap_eq_nil_iff.2 fun c hc => (hdefinitions c hc).2.1,
      List.filterMap_eq_nil_iff.2 fun c hc => (hconstants c hc).1]
    exact List.append_nil _
  · rw [List.filterMap_append, List.filterMap_append, List.filterMap_append,
      hth.filterMap_definition?, List.filterMap_eq_nil_iff.2 fun c hc => (hlengths c hc).2.1,
      List.filterMap_eq_nil_iff.2 fun c hc => (hconstants c hc).2.1]
    exact List.append_nil _
  · rw [List.filterMap_append, List.filterMap_append, List.filterMap_append,
      List.filterMap_eq_nil_iff.2 fun c hc => (hlengths c hc).2.2,
      List.filterMap_eq_nil_iff.2 fun c hc => (hdefinitions c hc).2.2,
      List.filterMap_eq_nil_iff.2 fun c hc => (hconstants c hc).2.2]
    rfl
  · have hmem : c ∈ th.definitions.map Prod.snd ++
        (consts ++ [refutation t, .app "check-sat" [], .app "get-model" []]) := by
      rcases hc with hc | rfl
      · exact List.mem_append_left _ hc
      · exact List.mem_append_right _ (List.mem_append_right _ List.mem_cons_self)
    obtain ⟨before, after, hsplit⟩ := List.append_of_mem hmem
    refine ⟨lengthCommands d.lengths ++ before, after, by rw [hsplit, List.append_assoc],
      fun ty hty => ?_⟩
    exact List.mem_append_left _ (hlength.2 ⟨ty, hty, rfl⟩)

/-- The commands of a script are closed. -/
theorem Records.closed (hth : Records th ps) (h : th.commands e = .ok cmds) :
    ∃ t, Closed ps e t cmds := by
  obtain ⟨t, d, hrun, hconst, hfunction, hdefinition, hassertion, hbefore⟩ := hth.read_commands h
  have hdeclares := declares_of_encode hrun
  have hsorted : d.consts.Sorted := hdeclares.constsSorted List.Pairwise.nil
  have hunbound : ∀ v : Var, d.consts.find? v.name = some v.ty ↔ Somewhere (Unbound v) [] e t := by
    intro v
    rw [hdeclares.consts]
    exact or_iff_right nofun
  have hmeasured : ∀ ty, th.lengths.find? (lengthName ty) = some (.array ty) ∨
      Somewhere (Measures ty) [] e t →
      d.lengths.find? (lengthName ty) = some (.array ty) := by
    intro ty hty
    rw [hdeclares.lengths hth.ofLengths]
    exact hty.imp_right fun hty => ⟨ty, hty, rfl, rfl⟩
  have hinjective : ∀ x y s, s ∈ symbol? x → s ∈ symbol? y → x = y := fun x y s => symbol?_injective
  refine ⟨t, fun s u => ?_, ?_, fun v w hv hw hname => ?_, ⟨hassertion, encodes_of_encode hrun, ?_⟩,
    fun x p hp => ?_, fun s hs => ?_, ?_, ?_⟩
  · rw [hconst, List.mem_filterMap]
    constructor
    · rintro ⟨⟨x, ty⟩, hmem, heq⟩
      obtain ⟨s, hs, heq⟩ := Option.map_eq_some_iff.1 heq
      obtain ⟨rfl, rfl⟩ := Prod.mk.inj heq
      exact ⟨⟨x, ty⟩, (hunbound ⟨x, ty⟩).1 (hsorted.mem_iff.1 hmem), hs, rfl⟩
    · rintro ⟨v, hv, hs, rfl⟩
      exact ⟨(v.name, v.ty), hsorted.mem_iff.2 ((hunbound v).2 hv), by rw [hs]; rfl⟩
  · have hnames : (cmds.filterMap const?).map Prod.fst =
        (d.consts.map Prod.fst).filterMap symbol? := by
      rw [hconst, List.map_filterMap, List.filterMap_map]
      refine List.filterMap_congr fun p _ => ?_
      cases hs : symbol? p.1 <;> simp [hs]
    rw [hnames]
    exact hsorted.nodup.filterMap hinjective
  · have hsame := ((hunbound v).2 hv).symm.trans (hname ▸ (hunbound w).2 hw)
    exact Option.some.inj hsame
  · exact (hbefore _ (.inr rfl)).imp fun ty hty => hmeasured ty (.inr hty)
  · obtain ⟨⟨y, c⟩, hmem, rfl⟩ := List.mem_map.1 (hth.registered x p hp)
    obtain ⟨q, s, params, b, hq, hdef, rfl, hlengths⟩ := hth.latest y c hmem
    obtain rfl : p = q := Option.some.inj (hp.symm.trans hq)
    exact ⟨s, params, b, hdef, (hbefore _ (.inl (List.mem_map_of_mem hmem))).imp fun ty hty =>
      hmeasured ty (.inl (hlengths ty hty))⟩
  · rw [hdefinition] at hs
    obtain ⟨x, hx, hs⟩ := List.mem_filterMap.1 hs
    obtain ⟨⟨y, c⟩, hmem, rfl⟩ := List.mem_map.1 hx
    obtain ⟨p, _, _, _, hp, -⟩ := hth.latest y c hmem
    exact ⟨y, p, hp, hs⟩
  · rw [hfunction]
    exact (hdeclares.lengthsSorted hth.sorted).nodup
  · rw [hdefinition]
    exact hth.once.filterMap hinjective

/-- The commands of a script can be read. -/
theorem Records.readable (hth : Records th ps) (h : th.commands e = .ok cmds) :
    ∀ c ∈ cmds, c.Readable := by
  obtain ⟨t, d, consts, hrun, hconsts, rfl⟩ := commands_eq_ok h
  obtain ⟨-, hforms⟩ := constCommands_eq_ok hconsts
  have hdeclares := declares_of_encode hrun
  have hword : ∀ w ∈ ["declare-fun", "define-fun", "declare-const", "assert", "not", "check-sat",
      "get-model", "Int", "Bool"], SExp.IsAtom w.toList := by
    intro w hw
    refine isAtom_word ?_
    revert w
    decide
  intro c hc
  simp only [List.mem_append, List.mem_cons, List.not_mem_nil, or_false] at hc
  rcases hc with hc | hc | hc | rfl | rfl | rfl
  · obtain ⟨ty, -, rfl⟩ := (mem_lengthCommands (hdeclares.ofLengths hth.ofLengths)
      (hdeclares.lengthsSorted hth.sorted)).1 hc
    exact ⟨hword _ (by decide), isAtom_lengthName ty, ⟨readable_sort _, trivial⟩,
      hword _ (by decide), trivial⟩
  · obtain ⟨⟨x, c⟩, hd, rfl⟩ := List.mem_map.1 hc
    obtain ⟨p, s, params, b, -, hdef, rfl, -⟩ := hth.latest x c hd
    exact ⟨hword _ (by decide), isAtom_symbol hdef.symbol,
      SExp.readableAll_iff.2 (readable_binders hdef.parameters),
      hword _ (by decide), hdef.body.readable, trivial⟩
  · obtain ⟨x, s, ty, hs, rfl⟩ := hforms c hc
    exact ⟨hword _ (by decide), isAtom_symbol hs, readable_sort ty, trivial⟩
  · exact ⟨hword _ (by decide),
      ⟨hword _ (by decide), (encodes_of_encode hrun).readable, trivial⟩, trivial⟩
  · exact ⟨hword _ (by decide), trivial⟩
  · exact ⟨hword _ (by decide), trivial⟩

/-- A script is read as the commands that it was made of. -/
theorem Records.parse_query (hth : Records th ps) {script : String} (h : th.query e = .ok script) :
    ∃ cmds, th.commands e = .ok cmds ∧ SExp.parse script = .ok cmds := by
  obtain ⟨cmds, hcmds, h⟩ := bind_eq_ok.1 h
  obtain rfl := Except.ok.inj h
  exact ⟨cmds, hcmds, SExp.parse_lines (hth.readable hcmds)⟩

end Theory

/-- After any sequence of definitions, of which some may have failed, every script is closed. -/
theorem query_closed {ps : List Predicate} {e : Expr} {script : String}
    (h : (Theory.attempts ps).1.query e = .ok script) :
    ∃ cmds t, SExp.parse script = .ok cmds ∧ Closed (Theory.attempts ps).2 e t cmds := by
  have hth := Theory.records_attempts ps
  obtain ⟨cmds, hcmds, hparse⟩ := hth.parse_query h
  obtain ⟨t, hclosed⟩ := hth.closed hcmds
  exact ⟨cmds, t, hparse, hclosed⟩

namespace Redefined

def a : Var := ⟨"a", .array .int⟩

def c : Var := ⟨"c", .array .bool⟩

def k : Var := ⟨"the key", .int⟩

/-- `len(a) < 10` -/
def short : Predicate := ⟨"small", [a], .binary .lt (.length (.var a)) (.int 10)⟩

/-- `len(c) < 10`, which mentions a variable that is no parameter. -/
def broken : Predicate := ⟨"small", [a], .binary .lt (.length (.var c)) (.int 10)⟩

/-- `forall i :: a[i] < 10` -/
def low : Predicate :=
  ⟨"small", [a],
    .quant .all [⟨"i", .int⟩] (.binary .lt (.select (.var a) (.var ⟨"i", .int⟩)) (.int 10))⟩

def history : List Predicate := [short, broken, low]

/-- `(exists a :: small(a{the key := 1; len 0})) ==> len(b{0 := c; len len(c)}) != the key` -/
def formula : Expr :=
  .implies (.quant .ex [a] (.apply "small" [.update (.var a) (.var k) (.int 1) (.int 0)])) (.binary
    .ne (.length (.update (.var ⟨"b", .int⟩) (.int 0) (.var c) (.length (.var c)))) (.var k))

def ints : SExp := .app "Array" [.atom "Int", .atom "Int"]

def bools : SExp := .app "Array" [.atom "Int", .atom "Bool"]

def commands : List SExp :=
  [.app "declare-fun" [.atom "len.bool", .list [bools], .atom "Int"],
    .app "declare-fun" [.atom "len.int", .list [ints], .atom "Int"],
    .app "define-fun" [.atom "small", .list [.list [.atom "a", ints]], .atom "Bool",
      .app "forall" [.list [.list [.atom "i", .atom "Int"]],
      .app "<" [.app "select" [.atom "a", .atom "i"], .atom "10"]]],
    .app "declare-const" [.atom "c", bools], .app "declare-const" [.atom "|the key|", .atom "Int"],
    .app "assert" [.app "not" [.app "=>" [
      .app "exists" [.list [.list [.atom "a", ints]],
        .app "small" [.app "store" [.atom "a", .atom "|the key|", .atom "1"]]],
      .app "not" [.app "=" [.app "len.bool" [.atom "c"], .atom "|the key|"]]]]],
    .app "check-sat" [], .app "get-model" []]

theorem query_closed_redefined :
    (Theory.attempts history).1.commands formula = .ok commands ∧
    (Theory.attempts history).2 = [low, short] ∧
    ∃ script, (Theory.attempts history).1.query formula = .ok script ∧
      ∃ cmds t, SExp.parse script = .ok cmds ∧ Closed [low, short] formula t cmds := by
  have hcommands : (Theory.attempts history).1.commands formula = .ok commands := rfl
  have hquery : (Theory.attempts history).1.query formula =
      .ok (String.join (commands.map fun c => c.render ++ "\n")) := by
    rw [Theory.query, hcommands]
    rfl
  exact ⟨hcommands, rfl, _, hquery, query_closed hquery⟩

end Redefined

end Cutpoint.Smt
