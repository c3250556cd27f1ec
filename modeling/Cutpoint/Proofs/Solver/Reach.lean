import Mathlib.Data.List.Basic
import Cutpoint.Proofs.Eval.Exact
import Cutpoint.Solver.Bounded

/-!
# The scan for quantifiers

* `Predicates.covers_reach`: the definitions that the scan reaches are closed under application;
* `Predicates.Applies`: the definitions that an expression applies, directly or through others; the
  scan reaches nothing else (`Predicates.applies_of_mem_reach`);
* `Evaluator.invariant_reached`: where the scan finds no quantifier, evaluation meets none, and
  applies reached predicates only.
-/

set_option autoImplicit false

namespace Cutpoint

namespace Expr

theorem anyQuantifier_eq_false {es : List Expr} :
    anyQuantifier es = false ↔ ∀ e ∈ es, e.hasQuantifier = false := by
  induction es with
  | nil => simp [anyQuantifier]
  | cons e es ih => simp [anyQuantifier, ih]

theorem mem_allApplied {es : List Expr} {n : String} :
    n ∈ allApplied es ↔ ∃ e ∈ es, n ∈ e.applied := by
  induction es with
  | nil => simp [allApplied]
  | cons e es ih => simp [allApplied, ih]

end Expr

/-! ## Reached definitions -/

namespace Predicates
variable {ps : Predicates} {seen ns : List String} {n : String} {p : Predicate}

theorem name_of_find? (h : ps.find? n = some p) : p.name = n := by
  simpa using List.find?_some h

/-- The definitions of the names are among those found, except for names seen before. -/
def Covers (ps : Predicates) (seen : List String) (found : List Predicate)
    (ns : List String) : Prop :=
  ∀ n ∈ ns, ∀ p, ps.find? n = some p → n ∈ seen ∨ p ∈ found

theorem visit_cons_new (hn : n ∉ seen) (hp : ps.find? n = some p) :
    visit ps seen (n :: ns) = ((visit ps (n :: seen) ns).1, p :: (visit ps (n :: seen) ns).2) := by
  rw [visit, if_neg (by simpa using hn), hp]

theorem visit_cons_old (h : ∀ p, ps.find? n = some p → n ∈ seen) :
    visit ps seen (n :: ns) = visit ps seen ns := by
  rw [visit]
  split
  · rfl
  · next hn =>
    cases hp : ps.find? n with
    | none => rfl
    | some p => exact absurd (by simpa using h p hp) hn

/-- A round of the search: what it visits is covered, what it finds is new, and it has then seen the
names of what it found. -/
theorem visit_spec (ps : Predicates) (seen ns : List String) :
    ps.Covers seen (visit ps seen ns).2 ns ∧
    (∀ p ∈ (visit ps seen ns).2, ps.find? p.name = some p ∧ p.name ∉ seen) ∧
    (∀ n, n ∈ (visit ps seen ns).1 ↔ n ∈ seen ∨ ∃ p ∈ (visit ps seen ns).2, p.name = n) := by
  induction ns generalizing seen with
  | nil =>
    refine ⟨fun n hn => absurd hn List.not_mem_nil, fun p hp => absurd hp List.not_mem_nil,
      fun n => ?_⟩
    simp [visit]
  | cons n ns ih =>
    by_cases hnew : ∃ p, ps.find? n = some p ∧ n ∉ seen
    · obtain ⟨p, hp, hn⟩ := hnew
      obtain ⟨hcovers, hfound, hseen⟩ := ih (n :: seen)
      have hname := name_of_find? hp
      rw [visit_cons_new hn hp]
      refine ⟨fun m hm q hq => ?_, fun q hq => ?_, fun m => ?_⟩
      · by_cases hmn : m = n
        · subst hmn
          exact .inr (List.mem_cons.2 (.inl (Option.some.inj (hq.symm.trans hp))))
        · have hm' : m ∈ ns := (List.mem_cons.1 hm).resolve_left hmn
          rcases hcovers m hm' q hq with hms | hqf
          · exact .inl ((List.mem_cons.1 hms).resolve_left hmn)
          · exact .inr (List.mem_cons_of_mem _ hqf)
      · rcases List.mem_cons.1 hq with rfl | hq
        · exact ⟨hname.symm ▸ hp, hname.symm ▸ hn⟩
        · exact ⟨(hfound q hq).1, fun h => (hfound q hq).2 (List.mem_cons_of_mem _ h)⟩
      · simp only [hseen, List.mem_cons, exists_eq_or_imp, hname]
        grind
    · have hold : ∀ p, ps.find? n = some p → n ∈ seen :=
        fun p hp => by_contra fun hn => hnew ⟨p, hp, hn⟩
      obtain ⟨hcovers, hfound, hseen⟩ := ih seen
      rw [visit_cons_old hold]
      refine ⟨fun m hm q hq => ?_, hfound, hseen⟩
      rcases List.mem_cons.1 hm with rfl | hm
      · exact .inl (hold q hq)
      · exact hcovers m hm q hq

/-- The number of definitions whose names were not seen. -/
def unseen (ps : Predicates) (seen : List String) : Nat := (ps.filter fun p => p.name ∉ seen).length

theorem unseen_visit_lt (h : (visit ps seen ns).2 ≠ []) :
    ps.unseen (visit ps seen ns).1 < ps.unseen seen := by
  obtain ⟨-, hfound, hseen⟩ := visit_spec ps seen ns
  obtain ⟨p, hp⟩ := List.exists_mem_of_ne_nil _ h
  have hsub : ps.filter (fun q => q.name ∉ (visit ps seen ns).1) =
      (ps.filter fun q => q.name ∉ seen).filter fun q => q.name ∉ (visit ps seen ns).1 := by
    rw [List.filter_filter]
    refine List.filter_congr fun q _ => ?_
    simp only [hseen]
    grind
  rw [unseen, unseen, hsub, List.length_filter_lt_length_iff_exists]
  obtain ⟨hfind, hnew⟩ := hfound p hp
  have hmem : p ∈ ps := List.mem_of_find?_eq_some hfind
  refine ⟨p, List.mem_filter.2 ⟨hmem, by simpa using hnew⟩, ?_⟩
  simp [(hseen p.name).2 (.inr ⟨p, hp, rfl⟩)]

/-- With enough fuel the search covers the names that it starts from, and all those that the bodies
it finds apply. -/
theorem covers_reach {fuel : Nat} (hfuel : ps.unseen seen < fuel) :
    ps.Covers seen (ps.reach fuel seen ns) ns ∧
    ∀ p ∈ ps.reach fuel seen ns, ps.Covers seen (ps.reach fuel seen ns) p.body.applied := by
  induction fuel generalizing seen ns with
  | zero => omega
  | succ fuel ih =>
    obtain ⟨hcovers, hfound, hseen⟩ := visit_spec ps seen ns
    rw [reach]
    dsimp only
    split
    · next hempty =>
      rw [List.isEmpty_iff] at hempty
      rw [hempty] at hcovers
      exact ⟨hcovers, fun p hp => absurd hp List.not_mem_nil⟩
    · next hempty =>
      have hne : (visit ps seen ns).2 ≠ [] := fun h => hempty (by rw [h]; rfl)
      have hlt := unseen_visit_lt hne
      obtain ⟨hnext, hbodies⟩ :=
        @ih (visit ps seen ns).1 ((visit ps seen ns).2.flatMap fun p => p.body.applied) (by omega)
      generalize hrest : ps.reach fuel (visit ps seen ns).1
        ((visit ps seen ns).2.flatMap fun p => p.body.applied) = rest at *
      -- what the next round has seen was seen before or found in this one
      have hwiden : ∀ ms, ps.Covers (visit ps seen ns).1 rest ms →
          ps.Covers seen ((visit ps seen ns).2 ++ rest) ms := by
        intro ms hms m hm q hq
        rcases hms m hm q hq with hmseen | hqrest
        · rcases (hseen m).1 hmseen with hmseen | ⟨p, hp, rfl⟩
          · exact .inl hmseen
          · have hpq : p = q := Option.some.inj ((hfound p hp).1.symm.trans hq)
            exact .inr (List.mem_append_left _ (hpq ▸ hp))
        · exact .inr (List.mem_append_right _ hqrest)
      refine ⟨fun m hm q hq => (hcovers m hm q hq).imp_right (List.mem_append_left _),
        fun p hp => ?_⟩
      rcases List.mem_append.1 hp with hp | hp
      · exact hwiden _ fun m hm q hq => hnext m (List.mem_flatMap.2 ⟨p, hp, hm⟩) q hq
      · exact hwiden _ (hbodies p hp)

/-- The definitions that the scan of an expression reaches. -/
def reached (ps : Predicates) (e : Expr) : List Predicate := ps.reach (ps.length + 1) [] e.applied

/-- The definitions that an expression applies, directly or through others. -/
inductive Applies (ps : Predicates) (e : Expr) : Predicate → Prop
  | direct {n : String} {p : Predicate} : n ∈ e.applied → ps.find? n = some p → ps.Applies e p
  | through {q : Predicate} {n : String} {p : Predicate} :
    ps.Applies e q → n ∈ q.body.applied → ps.find? n = some p → ps.Applies e p

theorem find?_of_mem_visit (h : p ∈ (visit ps seen ns).2) : ∃ n ∈ ns, ps.find? n = some p := by
  induction ns generalizing seen with
  | nil => exact absurd h List.not_mem_nil
  | cons n ns ih =>
    have hlater : ∀ {seen}, p ∈ (visit ps seen ns).2 → ∃ m ∈ n :: ns, ps.find? m = some p := by
      intro seen h
      obtain ⟨m, hm, hp⟩ := ih h
      exact ⟨m, List.mem_cons_of_mem _ hm, hp⟩
    by_cases hnew : ∃ q, ps.find? n = some q ∧ n ∉ seen
    · obtain ⟨q, hq, hn⟩ := hnew
      rw [visit_cons_new hn hq] at h
      rcases List.mem_cons.1 h with rfl | h
      · exact ⟨n, List.mem_cons_self, hq⟩
      · exact hlater h
    · rw [visit_cons_old fun q hq => by_contra fun hn => hnew ⟨q, hq, hn⟩] at h
      exact hlater h

/-- The search finds nothing but what is applied. -/
theorem applies_of_mem_reach {e : Expr} {fuel : Nat}
    (hns : ∀ n ∈ ns, ∀ p, ps.find? n = some p → ps.Applies e p) (h : p ∈ ps.reach fuel seen ns) :
    ps.Applies e p := by
  induction fuel generalizing seen ns with
  | zero => exact absurd h List.not_mem_nil
  | succ fuel ih =>
    have hfound : ∀ q ∈ (visit ps seen ns).2, ps.Applies e q := by
      intro q hq
      obtain ⟨n, hn, hfind⟩ := find?_of_mem_visit hq
      exact hns n hn q hfind
    rw [reach] at h
    dsimp only at h
    split at h
    · exact absurd h List.not_mem_nil
    · rcases List.mem_append.1 h with h | h
      · exact hfound p h
      · refine ih (fun n hn q hfind => ?_) h
        obtain ⟨r, hr, hn⟩ := List.mem_flatMap.1 hn
        exact .through (hfound r hr) hn hfind

theorem covers_reached (ps : Predicates) (e : Expr) :
    ps.Covers [] (ps.reached e) e.applied ∧
    ∀ p ∈ ps.reached e, ps.Covers [] (ps.reached e) p.body.applied := by
  refine covers_reach (Nat.lt_succ_of_le ?_)
  exact List.length_filter_le _ _

end Predicates

/-! ## Evaluation without quantifiers -/

/-- No quantifiers, and only predicates whose definitions are among `found`. -/
structure Expr.Plain (ps : Predicates) (found : List Predicate) (e : Expr) : Prop where
  plain : e.hasQuantifier = false
  covered : ps.Covers [] found e.applied

theorem Evaluator.invariant_reached {ev : Evaluator} {enter : Enter} (ps : Predicates)
    (found : List Predicate) : ev.Invariant enter (fun n _ => ∀ p, ps.find? n = some p → p ∈ found)
    (fun e _ => e.Plain ps found) where
  unary h := ⟨h.plain, h.covered⟩
  left h :=
    ⟨(Bool.or_eq_false_iff.1 h.plain).1, fun n hn => h.covered n (List.mem_append_left _ hn)⟩
  right h :=
    ⟨(Bool.or_eq_false_iff.1 h.plain).2, fun n hn => h.covered n (List.mem_append_right _ hn)⟩
  args h e he := ⟨Expr.anyQuantifier_eq_false.1 h.plain e he, fun n hn =>
    h.covered n (List.mem_cons_of_mem _ (Expr.mem_allApplied.2 ⟨e, he, hn⟩))⟩
  body h := absurd h.plain (by simp [Expr.hasQuantifier])
  applied h _ _ p hp := (h.covered _ List.mem_cons_self p hp).resolve_left List.not_mem_nil

/-- Where there is no quantifier, neither in the expression nor in the definitions that it applies,
the scan finds none. -/
theorem quantified_eq_false {ps : Predicates} {e : Expr} (he : e.hasQuantifier = false)
    (hps : ∀ p, ps.Applies e p → p.body.hasQuantifier = false) : quantified ps e = false := by
  refine Bool.or_eq_false_iff.2 ⟨he, List.any_eq_false.2 fun p hp => ?_⟩
  rw [hps p (Predicates.applies_of_mem_reach (fun n hn q hq => .direct hn hq) hp)]
  exact Bool.false_ne_true

/-- The scan finds no quantifier in the expression and in the definitions it reaches. -/
theorem plain_of_quantified {ps : Predicates} {e : Expr} (h : quantified ps e = false) :
    e.Plain ps (ps.reached e) ∧ ∀ p ∈ ps.reached e, p.body.Plain ps (ps.reached e) := by
  obtain ⟨he, hbodies⟩ := Bool.or_eq_false_iff.1 h
  obtain ⟨hstart, hclosed⟩ := ps.covers_reached e
  have hplain : ∀ p ∈ ps.reached e, p.body.hasQuantifier = false := by
    intro p hp
    simpa using List.any_eq_false.1 hbodies p hp
  exact ⟨⟨he, hstart⟩, fun p hp => ⟨hplain p hp, hclosed p hp⟩⟩

end Cutpoint
