import Mathlib.Data.List.Induction
import Cutpoint.Proofs.Path.Segment
import Cutpoint.Proofs.Smt.Script

/-!
# The order of definitions

A definition under a known name takes the place of the earlier one, so that predicates stand in the
order in which their names were defined for the first time (`Smt.Theory.names_defineAll`).

* `Smt.definition_order`: every script defines each predicate once, as its latest definition says.
  A predicate that a body applies is defined before that body's predicate exactly if its name was
  there before the other name was, and so always where no name is defined twice;
* `Smt.Late.use_before_definition`: a later definition of a name may apply predicates that are
  defined after it in the script.
-/

set_option autoImplicit false

namespace Cutpoint

/-! ## First occurrences -/

section Distinct
variable {α : Type} [DecidableEq α]

theorem distinct_append_one (as : List α) (b : α) :
    distinct (as ++ [b]) = if b ∈ as then distinct as else distinct as ++ [b] := by
  induction as with
  | nil => rfl
  | cons a as ih =>
    show a :: (distinct (as ++ [b])).filter (· ≠ a) = _
    rw [ih]
    by_cases hb : b ∈ as
    · rw [if_pos hb, if_pos (List.mem_cons_of_mem _ hb)]
      rfl
    · rw [if_neg hb, List.filter_append]
      by_cases hba : b = a
      · subst hba
        rw [if_pos List.mem_cons_self]
        simp [distinct]
      · rw [if_neg fun h => (List.mem_cons.1 h).elim hba hb]
        simp [distinct, hba]

theorem pair_sublist_filter {a b c : α} {as : List α} (ha : a ≠ c) (hb : b ≠ c) :
    [a, b].Sublist (as.filter (· ≠ c)) ↔ [a, b].Sublist as := by
  refine ⟨fun h => h.trans List.filter_sublist, fun h => ?_⟩
  have hfilter := h.filter (· ≠ c)
  rwa [List.filter_cons_of_pos (by simpa using ha),
    List.filter_cons_of_pos (by simpa using hb)] at hfilter

/-- Of two members, one comes first among the first occurrences exactly if it occurs before the
other does. -/
theorem pair_sublist_distinct {a b : α} {as : List α} (hb : b ∈ as) :
    [a, b].Sublist (distinct as) ↔ a ∈ as.takeWhile (· ≠ b) := by
  induction as with
  | nil => exact absurd hb List.not_mem_nil
  | cons c as ih =>
    show [a, b].Sublist (c :: (distinct as).filter (· ≠ c)) ↔ _
    by_cases hcb : c = b
    · subst hcb
      -- nothing occurs before the head, and the head occurs only once
      have hhead : c ∉ (distinct as).filter (· ≠ c) := by simp
      rw [List.takeWhile_cons_of_neg (by simp)]
      refine iff_of_false (fun h => ?_) List.not_mem_nil
      rcases List.sublist_cons_iff.1 h with h | ⟨r, hr, h⟩
      · exact hhead (h.subset (by simp))
      · obtain ⟨-, rfl⟩ := List.cons.inj hr
        exact hhead (h.subset (by simp))
    · replace hb : b ∈ as := (List.mem_cons.1 hb).resolve_left (Ne.symm hcb)
      rw [List.takeWhile_cons_of_pos (by simpa using hcb), List.mem_cons]
      by_cases hac : a = c
      · subst hac
        refine iff_of_true (List.cons_sublist_cons.2 (List.singleton_sublist.2 ?_)) (.inl rfl)
        exact List.mem_filter.2 ⟨mem_distinct.2 hb, by simpa using Ne.symm hcb⟩
      · have hskip : [a, b].Sublist (c :: (distinct as).filter (· ≠ c)) ↔
            [a, b].Sublist ((distinct as).filter (· ≠ c)) := by
          rw [List.sublist_cons_iff]
          refine or_iff_left ?_
          rintro ⟨r, hr, -⟩
          exact hac (List.cons.inj hr).1
        rw [or_iff_right hac, ← ih hb, hskip, pair_sublist_filter hac (Ne.symm hcb)]

end Distinct

namespace Smt

/-! ## Sequences of definitions -/

namespace Theory

/-- The theory of a sequence of definitions, all of which succeed. -/
def defineAll (ps : List Predicate) : Except EncodeError Theory := ps.foldlM define {}

theorem attempts_defineAll {ps : List Predicate} {th : Theory} (h : defineAll ps = .ok th) :
    attempts ps = (th, ps.reverse) := by
  have hrun : ∀ (ps : List Predicate) (th₀ : Theory) (qs : Predicates),
      ps.foldlM define th₀ = .ok th →
      ps.foldl attempt (th₀, qs) = (th, ps.reverse ++ qs) := by
    intro ps
    induction ps with
    | nil =>
      intro th₀ qs h
      obtain rfl := Except.ok.inj h
      rfl
    | cons p ps ih =>
      intro th₀ qs h
      rw [List.foldlM_cons] at h
      obtain ⟨th₁, hth₁, h⟩ := bind_eq_ok.1 h
      have hstep : attempt (th₀, qs) p = (th₁, p :: qs) := by
        simp only [attempt, hth₁]
        rfl
      rw [List.foldl_cons, hstep, ih th₁ (p :: qs) h]
      simp
  have hall := hrun ps {} [] h
  rwa [List.append_nil] at hall

theorem records_defineAll {ps : List Predicate} {th : Theory} (h : defineAll ps = .ok th) :
    Records th ps.reverse := by
  have hall := records_attempts ps
  rwa [attempts_defineAll h] at hall

/-- Predicates stand in the order of the first definitions of their names. -/
theorem names_defineAll {ps : List Predicate} {th : Theory} (h : defineAll ps = .ok th) :
    th.definitions.map Prod.fst = distinct (ps.map Predicate.name) := by
  induction ps using List.reverseRecOn generalizing th with
  | nil =>
    obtain rfl := Except.ok.inj h
    rfl
  | append_singleton ps p ih =>
    unfold defineAll at h
    rw [List.foldlM_append] at h
    obtain ⟨th₀, hth₀, h⟩ := bind_eq_ok.1 h
    have hlast : th₀.define p = .ok th := by
      rw [List.foldlM_cons] at h
      obtain ⟨th₁, hth₁, h⟩ := bind_eq_ok.1 h
      rw [hth₁]
      exact h
    obtain ⟨s, params, b, -, hdefs, -, -⟩ := define_eq_ok hlast (records_defineAll hth₀).ofLengths
    rw [hdefs, map_fst_replaceOrAdd, ih hth₀, List.map_append, List.map_singleton,
      distinct_append_one]
    simp only [mem_distinct]

end Theory

/-! ## Order in scripts -/

/-- The predicate `q` is defined before the predicate `x` in a list of commands. -/
def DefinedBefore (cmds : List SExp) (q x : String) : Prop :=
  ∃ s t, symbol? q = some s ∧ symbol? x = some t ∧ [s, t].Sublist (cmds.filterMap definition?)

theorem pair_sublist_symbols {xs : List String} {q x : String}
    (hxs : ∀ y ∈ xs, (symbol? y).isSome) :
    (∃ s t, symbol? q = some s ∧ symbol? x = some t ∧ [s, t].Sublist (xs.filterMap symbol?)) ↔
      [q, x].Sublist xs := by
  constructor
  · rintro ⟨s, t, hs, ht, h⟩
    obtain ⟨ys, hys, hst⟩ := List.sublist_filterMap_iff.1 h
    -- every name has a symbol, so that the two symbols come from two names
    match ys, hst, hys with
    | [], hst, _ => cases hst
    | [y], hst, hys =>
      obtain ⟨u, hu⟩ := Option.isSome_iff_exists.1 (hxs y (hys.subset (by simp)))
      simp [hu] at hst
    | y :: z :: ys, hst, hys =>
      obtain ⟨u, hu⟩ := Option.isSome_iff_exists.1 (hxs y (hys.subset (by simp)))
      obtain ⟨w, hw⟩ := Option.isSome_iff_exists.1 (hxs z (hys.subset (by simp)))
      simp only [List.filterMap_cons, hu, hw, List.cons.injEq] at hst
      obtain ⟨rfl, rfl, -⟩ := hst
      obtain rfl := symbol?_injective hs hu
      obtain rfl := symbol?_injective ht hw
      exact List.Sublist.trans (by simp) hys
  · intro h
    obtain ⟨s, hs⟩ := Option.isSome_iff_exists.1 (hxs q (h.subset (by simp)))
    obtain ⟨t, ht⟩ := Option.isSome_iff_exists.1 (hxs x (h.subset (by simp)))
    refine ⟨s, t, hs, ht, ?_⟩
    have hsymbols := h.filterMap symbol?
    simpa [hs, ht] using hsymbols

/-- One command defines the symbol of the predicate, and it is the definition of this predicate. -/
def DefinedOnce (cmds : List SExp) (p : Predicate) : Prop :=
  ∃ s params b, IsDefinition p s params b ∧
    cmds.filter (definition? · = some s) = [definitionCommand s params b]

theorem filter_definition? {cmds : List SExp} {c : SExp} {s : String} (hc : c ∈ cmds)
    (hs : definition? c = some s) (hnodup : (cmds.filterMap definition?).Nodup) :
    cmds.filter (definition? · = some s) = [c] := by
  obtain ⟨before, after, rfl⟩ := List.append_of_mem hc
  rw [List.filterMap_append, List.filterMap_cons_some hs, List.nodup_middle, List.nodup_cons,
    List.mem_append, not_or] at hnodup
  obtain ⟨⟨hbefore, hafter⟩, -⟩ := hnodup
  have hnone : ∀ {ds : List SExp}, s ∉ ds.filterMap definition? →
      ds.filter (definition? · = some s) = [] := fun h =>
    List.filter_eq_nil_iff.2 fun d hd hds =>
      h (List.mem_filterMap.2 ⟨d, hd, of_decide_eq_true hds⟩)
  rw [List.filter_append, List.filter_cons_of_pos (by simpa using hs), hnone hbefore, hnone hafter,
    List.nil_append]

/-! ## Sequences without repetition -/

/-- Each body applies only predicates that were defined before it. -/
def AppliesEarlier (ps : List Predicate) : Prop :=
  ∀ i : Fin ps.length, ∀ q ∈ (ps.get i).body.applied, q ∈ (ps.take i).map Predicate.name

instance (ps : List Predicate) : Decidable (AppliesEarlier ps) :=
  inferInstanceAs (Decidable (∀ i : Fin ps.length, ∀ q ∈ (ps.get i).body.applied,
    q ∈ (ps.take i).map Predicate.name))

/-- A predicate that was defined has a latest definition. -/
theorem exists_latest {ps : List Predicate} {p : Predicate} (hp : p ∈ ps) :
    ∃ p', Predicates.find? ps.reverse p.name = some p' := by
  refine Option.isSome_iff_exists.1 (List.find?_isSome.2 ⟨p, List.mem_reverse.2 hp, ?_⟩)
  exact decide_eq_true rfl

section Once
variable {ps : List Predicate} (hnodup : (ps.map Predicate.name).Nodup) {p : Predicate}
  (hp : p ∈ ps)
include hnodup hp

/-- Without repetition every definition is the latest. -/
theorem find?_reverse_of_nodup : Predicates.find? ps.reverse p.name = some p := by
  obtain ⟨p', hp'⟩ := exists_latest hp
  have hmem := List.mem_reverse.1 (List.mem_of_find?_eq_some hp')
  rw [hp', List.inj_on_of_nodup_map hnodup hmem hp (Predicates.name_of_find? hp')]

/-- Without repetition, what was there before a definition was there before its name. -/
theorem AppliesEarlier.mem_takeWhile (h : AppliesEarlier ps) {q : String}
    (hq : q ∈ p.body.applied) : q ∈ (ps.map Predicate.name).takeWhile (· ≠ p.name) := by
  obtain ⟨i, rfl⟩ := List.mem_iff_get.1 hp
  have hsplit : ps.map Predicate.name =
      (ps.take i).map Predicate.name ++ (ps.drop i).map Predicate.name := by
    rw [← List.map_append, List.take_append_drop]
  have hhere : (ps.get i).name ∈ (ps.drop i).map Predicate.name := by
    rw [List.drop_eq_getElem_cons i.isLt]
    exact List.mem_cons_self
  rw [hsplit] at hnodup ⊢
  rw [List.takeWhile_append_of_pos]
  · exact List.mem_append_left _ (h i q hq)
  · intro y hy
    refine decide_eq_true fun hname => ?_
    exact (List.nodup_append'.1 hnodup).2.2 hy (hname ▸ hhere)

end Once

/-! ## The order -/

/-- **The order of definitions**: after a sequence of definitions every script defines each
predicate once, as the latest definition of its name says, and nothing else. A predicate that its
body applies is defined before it exactly if the name of that predicate was defined before its own
was defined for the first time. So, where no name is defined twice and each body applies only
predicates that were defined before, all predicates are defined before they are applied. -/
theorem definition_order {ps : List Predicate} {th : Theory} (hps : Theory.defineAll ps = .ok th)
    {e : Expr} {script : String} (h : th.query e = .ok script) :
    ∃ cmds, SExp.parse script = .ok cmds ∧ (cmds.filterMap definition?).Nodup ∧
      (∀ s ∈ cmds.filterMap definition?, ∃ p ∈ ps, symbol? p.name = some s) ∧
      (∀ p ∈ ps, ∃ p', Predicates.find? ps.reverse p.name = some p' ∧ DefinedOnce cmds p') ∧
      (∀ x p, Predicates.find? ps.reverse x = some p → ∀ q ∈ p.body.applied,
        (DefinedBefore cmds q x ↔ q ∈ (ps.map Predicate.name).takeWhile (· ≠ x))) ∧
      ((ps.map Predicate.name).Nodup → AppliesEarlier ps →
        ∀ p ∈ ps, DefinedOnce cmds p ∧ ∀ q ∈ p.body.applied, DefinedBefore cmds q p.name) := by
  have hth := Theory.records_defineAll hps
  obtain ⟨cmds, hcmds, hparse⟩ := hth.parse_query h
  obtain ⟨t, hclosed⟩ := hth.closed hcmds
  obtain ⟨_, _, -, -, -, hdefinition, -, -⟩ := hth.read_commands hcmds
  have hfound : ∀ {x p}, Predicates.find? ps.reverse x = some p → p ∈ ps ∧ p.name = x :=
    fun hp => ⟨List.mem_reverse.1 (List.mem_of_find?_eq_some hp), Predicates.name_of_find? hp⟩
  have honce : ∀ {x p}, Predicates.find? ps.reverse x = some p → DefinedOnce cmds p := by
    intro x p hp
    obtain ⟨s, params, b, hdef, before, after, hsplit, -⟩ := hclosed.defined x p hp
    have hmem : definitionCommand s params b ∈ cmds := by
      rw [hsplit]
      exact List.mem_append_right _ List.mem_cons_self
    exact ⟨s, params, b, hdef, filter_definition? hmem rfl hclosed.definitionsOnce⟩
  have hsymbols : ∀ y ∈ th.definitions.map Prod.fst, (symbol? y).isSome := by
    intro y hy
    obtain ⟨⟨y, c⟩, hmem, rfl⟩ := List.mem_map.1 hy
    obtain ⟨p, s, _, _, hp, hdef, -, -⟩ := hth.latest y c hmem
    rw [← Predicates.name_of_find? hp, hdef.symbol]
    rfl
  have horder : ∀ {x p}, Predicates.find? ps.reverse x = some p → ∀ q,
      DefinedBefore cmds q x ↔ q ∈ (ps.map Predicate.name).takeWhile (· ≠ x) := by
    intro x p hp q
    have hx : x ∈ ps.map Predicate.name := (hfound hp).2 ▸ List.mem_map_of_mem (hfound hp).1
    unfold DefinedBefore
    rw [hdefinition, pair_sublist_symbols hsymbols, Theory.names_defineAll hps,
      pair_sublist_distinct hx]
  refine ⟨cmds, hparse, hclosed.definitionsOnce, fun s hs => ?_, fun p hp => ?_,
    fun x p hp q _ => horder hp q, fun hnodup hearlier p hp => ?_⟩
  · obtain ⟨x, p, hp, hx⟩ := hclosed.definedOnly s hs
    exact ⟨p, (hfound hp).1, (hfound hp).2 ▸ hx⟩
  · obtain ⟨p', hp'⟩ := exists_latest hp
    exact ⟨p', hp', honce hp'⟩
  · have hlatest := find?_reverse_of_nodup hnodup hp
    exact ⟨honce hlatest, fun q hq =>
      (horder hlatest q).2 (hearlier.mem_takeWhile hnodup hp hq)⟩

namespace Layered

def n : Var := ⟨"n", .int⟩

def low : Predicate := ⟨"low", [], .tt⟩

/-- `low() && n > 0` -/
def mid : Predicate := ⟨"mid", [n], .and (.apply "low" []) (.binary .gt (.var n) (.int 0))⟩

/-- `mid(n) && low()` -/
def top : Predicate := ⟨"top", [n], .and (.apply "mid" [.var n]) (.apply "low" [])⟩

/-- `low() ==> n < 0` -/
def mid' : Predicate := ⟨"mid", [n], .implies (.apply "low" []) (.binary .lt (.var n) (.int 0))⟩

def once : List Predicate := [low, mid, top]

def history : List Predicate := once ++ [mid']

/-- A name that is defined again keeps its place and has its latest body, which is in order if it
applies only what was there before that place. Without that definition all bodies are in order. -/
theorem definition_order_layered :
    (∃ th script cmds, Theory.defineAll history = .ok th ∧ th.query .tt = .ok script ∧
      SExp.parse script = .ok cmds ∧ DefinedOnce cmds mid' ∧ DefinedBefore cmds "low" "mid" ∧
      DefinedBefore cmds "mid" "top") ∧
    ∃ th script cmds, Theory.defineAll once = .ok th ∧ th.query .tt = .ok script ∧
      SExp.parse script = .ok cmds ∧ (∀ p ∈ once, DefinedOnce cmds p) ∧
      ∀ p ∈ once, ∀ q ∈ p.body.applied, DefinedBefore cmds q p.name := by
  constructor
  · obtain ⟨th, hth, script, hscript⟩ : ∃ th, Theory.defineAll history = .ok th ∧
        ∃ script, th.query .tt = .ok script := ⟨_, rfl, _, rfl⟩
    obtain ⟨cmds, hparse, -, -, hlatest, horder, -⟩ := definition_order hth hscript
    obtain ⟨p, hp, honce⟩ := hlatest mid' (List.mem_append_right _ List.mem_cons_self)
    obtain rfl : mid' = p := Option.some.inj hp
    refine ⟨th, script, cmds, hth, hscript, hparse, honce, ?_, ?_⟩
    · exact (horder "mid" mid' rfl "low" (by decide)).2 (by decide)
    · exact (horder "top" top rfl "mid" (by decide)).2 (by decide)
  · obtain ⟨th, hth, script, hscript⟩ : ∃ th, Theory.defineAll once = .ok th ∧
        ∃ script, th.query .tt = .ok script := ⟨_, rfl, _, rfl⟩
    obtain ⟨cmds, hparse, -, -, -, -, hall⟩ := definition_order hth hscript
    have hordered := hall (by decide) (by decide)
    exact ⟨th, script, cmds, hth, hscript, hparse, fun p hp => (hordered p hp).1,
      fun p hp => (hordered p hp).2⟩

end Layered

/-! ## Definitions that come too late -/

namespace Late

def first : Predicate := ⟨"first", [], .tt⟩

def second : Predicate := ⟨"second", [], .tt⟩

/-- `second()` -/
def first' : Predicate := ⟨"first", [], .apply "second" []⟩

def history : List Predicate := [first, second, first']

def commands : List SExp :=
  [definitionCommand "first" [] (.atom "second"), definitionCommand "second" [] (.atom "true"),
    refutation (.atom "first"),
    .app "check-sat" [], .app "get-model" []]

/-- Every body applies only predicates that were defined before, and yet the script applies a
predicate before it defines it. -/
theorem use_before_definition :
    ∃ th script, Theory.defineAll history = .ok th ∧
      AppliesEarlier history ∧ th.query (.apply "first" []) = .ok script ∧
      SExp.parse script = .ok commands ∧
      Predicates.find? history.reverse "first" = some first' ∧ "second" ∈ first'.body.applied ∧
      ¬ DefinedBefore commands "second" "first" := by
  obtain ⟨th, hth⟩ : ∃ th, Theory.defineAll history = .ok th := ⟨_, rfl⟩
  have hcommands : th.commands (.apply "first" []) = .ok commands := by
    obtain rfl := Except.ok.inj hth
    rfl
  obtain ⟨script, hscript⟩ : ∃ script, th.query (.apply "first" []) = .ok script := by
    rw [Theory.query, hcommands]
    exact ⟨_, rfl⟩
  obtain ⟨cmds, hcmds, hparse⟩ := (Theory.records_defineAll hth).parse_query hscript
  obtain rfl : commands = cmds := Except.ok.inj (hcommands.symm.trans hcmds)
  refine ⟨th, script, hth, by decide, hscript, hparse, rfl, by decide, ?_⟩
  rintro ⟨s, t, hs, ht, hsublist⟩
  obtain rfl : "second" = s := Option.some.inj hs
  obtain rfl : "first" = t := Option.some.inj ht
  revert hsublist
  decide

end Late

end Smt

end Cutpoint
