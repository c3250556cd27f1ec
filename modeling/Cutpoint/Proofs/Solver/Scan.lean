import Mathlib.Logic.Relation
import Cutpoint.Proofs.Expr.Shape
import Cutpoint.Proofs.Solver.Reach

/-!
# Quantifiers within reach

* `Predicates.Leads`: one step from an expression to a part of it, or from an application to the
  body of the definition; `Predicates.Quantifies`: such steps lead to a quantifier;
* `Predicates.Clean A e`: no quantifier in `e`, and all definitions that it applies are in `A`. If
  the bodies of `A` are clean too, then no quantifier is within reach (`Clean.not_quantifies`), and
  the value does not depend on the domain of quantifiers (`Evaluator.eval_clean`);
* `Predicates.Scans`: a depth-first scan that enters each definition once, whichever part of the
  expression comes to it first. `Scans.clean` is its invariant: what it went through is clean for
  the names it has seen, although it may have passed over a definition whose body it was still in;
* `quantified_exact`: both ways to scan find a quantifier exactly if there is one within reach.
-/

set_option autoImplicit false

namespace Cutpoint

namespace Expr

theorem hasQuantifier_iff {e : Expr} :
    e.hasQuantifier = true ↔
      (∃ q bs f, e = quant q bs f) ∨ ∃ f ∈ e.parts, f.hasQuantifier = true := by
  cases e with
  | apply p es =>
    have hany : anyQuantifier es = true ↔ ∃ f ∈ es, f.hasQuantifier = true := by
      rw [← Bool.not_eq_false, anyQuantifier_eq_false]
      simp
    simpa [hasQuantifier, parts] using hany
  | _ => simp [hasQuantifier, parts, or_assoc]

theorem mem_applied_iff {e : Expr} {n : String} :
    n ∈ e.applied ↔ (∃ es, e = apply n es) ∨ ∃ f ∈ e.parts, n ∈ f.applied := by
  cases e with
  | apply p es =>
    rw [applied, List.mem_cons, mem_allApplied]
    simp [parts, eq_comm]
  | _ => simp [applied, parts]

end Expr

namespace Predicates
variable {ps : Predicates} {e f : Expr} {p : Predicate} {n : String}

/-! ## Reach -/

/-- One step: to a part, or from an application to the body of the definition. -/
inductive Leads (ps : Predicates) : Expr → Expr → Prop
  | part {e f : Expr} : f ∈ e.parts → ps.Leads e f
  | body {n : String} {p : Predicate} (es : List Expr) :
      ps.find? n = some p → ps.Leads (.apply n es) p.body

/-- A quantifier is within reach. -/
def Quantifies (ps : Predicates) (e : Expr) : Prop :=
  ∃ q bs f, Relation.ReflTransGen ps.Leads e (.quant q bs f)

theorem Quantifies.of_leads (h : ps.Leads e f) : ps.Quantifies f → ps.Quantifies e
  | ⟨q, bs, g, hg⟩ => ⟨q, bs, g, .head h hg⟩

theorem quantifies_of_hasQuantifier (h : e.hasQuantifier = true) : ps.Quantifies e := by
  induction e using Expr.induct_parts with
  | h e ih =>
    rcases Expr.hasQuantifier_iff.1 h with ⟨q, bs, f, rfl⟩ | ⟨f, hf, hq⟩
    · exact ⟨q, bs, f, .refl⟩
    · exact (ih f hf hq).of_leads (.part hf)

theorem leads_of_mem_applied (hn : n ∈ e.applied) (hp : ps.find? n = some p) :
    Relation.ReflTransGen ps.Leads e p.body := by
  induction e using Expr.induct_parts with
  | h e ih =>
    rcases Expr.mem_applied_iff.1 hn with ⟨es, rfl⟩ | ⟨f, hf, hn⟩
    · exact .single (.body es hp)
    · exact .head (.part hf) (ih f hf hn)

theorem Applies.leads (h : ps.Applies e p) : Relation.ReflTransGen ps.Leads e p.body := by
  induction h with
  | direct hn hp => exact leads_of_mem_applied hn hp
  | through _ hn hp ih => exact ih.trans (leads_of_mem_applied hn hp)

/-! ## Clean expressions -/

/-- No quantifier in the expression, and only definitions of `A` applied. -/
structure Clean (ps : Predicates) (A : Predicate → Prop) (e : Expr) : Prop where
  plain : e.hasQuantifier = false
  known : ∀ n ∈ e.applied, ∀ p, ps.find? n = some p → A p

section Clean
variable {A B : Predicate → Prop}

theorem clean_iff :
    ps.Clean A e ↔ (∀ q bs f, e ≠ .quant q bs f) ∧
      (∀ f ∈ e.parts, ps.Clean A f) ∧ ∀ n es, e = .apply n es → ∀ p, ps.find? n = some p → A p := by
  constructor
  · rintro ⟨hplain, hknown⟩
    have hno := fun h => Bool.eq_false_iff.1 hplain (Expr.hasQuantifier_iff.2 h)
    refine ⟨fun q bs f h => hno (.inl ⟨q, bs, f, h⟩),
      fun f hf => ⟨Bool.eq_false_iff.2 fun h => hno (.inr ⟨f, hf, h⟩), ?_⟩, ?_⟩
    · exact fun n hn => hknown n (Expr.mem_applied_iff.2 (.inr ⟨f, hf, hn⟩))
    · exact fun n es h => hknown n (Expr.mem_applied_iff.2 (.inl ⟨es, h⟩))
  · rintro ⟨hquant, hparts, happly⟩
    refine ⟨Bool.eq_false_iff.2 fun h => ?_, fun n hn => ?_⟩
    · rcases Expr.hasQuantifier_iff.1 h with ⟨q, bs, f, rfl⟩ | ⟨f, hf, hq⟩
      · exact hquant q bs f rfl
      · exact Bool.eq_false_iff.1 (hparts f hf).plain hq
    · rcases Expr.mem_applied_iff.1 hn with ⟨es, rfl⟩ | ⟨f, hf, hn⟩
      · exact happly n es rfl
      · exact (hparts f hf).known n hn

theorem Clean.mono (h : ps.Clean A e) (hAB : ∀ p, A p → B p) : ps.Clean B e :=
  ⟨h.plain, fun n hn p hp => hAB p (h.known n hn p hp)⟩

theorem Clean.leads (hA : ∀ p, A p → ps.Clean A p.body) (he : ps.Clean A e)
    (h : ps.Leads e f) : ps.Clean A f := by
  cases h with
  | part hf => exact (clean_iff.1 he).2.1 f hf
  | body es hp => exact hA _ ((clean_iff.1 he).2.2 _ es rfl _ hp)

theorem Clean.reaches (hA : ∀ p, A p → ps.Clean A p.body) (he : ps.Clean A e)
    (h : Relation.ReflTransGen ps.Leads e f) : ps.Clean A f := by
  induction h with
  | refl => exact he
  | tail _ hstep ih => exact ih.leads hA hstep

theorem Clean.not_quantifies (hA : ∀ p, A p → ps.Clean A p.body) (he : ps.Clean A e) :
    ¬ ps.Quantifies e := by
  rintro ⟨q, bs, f, h⟩
  exact (clean_iff.1 (he.reaches hA h)).1 q bs f rfl

end Clean

/-! ## The depth-first scan -/

/-- What the scan has seen when it enters an expression, and what it then goes through from left to
right. The body of a definition comes before the arguments, unless its name was seen. -/
def opened (ps : Predicates) (seen : List String) : Expr → List String × List Expr
  | .apply n es =>
    match ps.find? n with
    | some p => if seen.contains n then (seen, es) else (n :: seen, p.body :: es)
    | none => (seen, es)
  | e => (seen, e.parts)

/-- The scan of expressions from left to right: whether it finds a quantifier, at which it stops,
and the names that it has seen then. -/
inductive Scans (ps : Predicates) : List String → List Expr → Bool → List String → Prop
  | done (seen : List String) : ps.Scans seen [] false seen
  | found (seen : List String) (q : Quantifier) (bs : List Var) (e : Expr)
      (es : List Expr) : ps.Scans seen (.quant q bs e :: es) true seen
  | stop {seen seen' : List String} {e : Expr} (es : List Expr) (he : ∀ q bs f, e ≠ .quant q bs f)
      (hin : ps.Scans (ps.opened seen e).1 (ps.opened seen e).2 true seen') :
      ps.Scans seen (e :: es) true seen'
  | next {seen mid seen' : List String} {e : Expr} {es : List Expr}
      {b : Bool} (he : ∀ q bs f, e ≠ .quant q bs f)
      (hin : ps.Scans (ps.opened seen e).1 (ps.opened seen e).2 false mid)
      (hrest : ps.Scans mid es b seen') : ps.Scans seen (e :: es) b seen'

section Scans
variable {seen seen' : List String} {es : List Expr} {b : Bool}

/-- An expression is entered by its parts, or it applies a new definition and this comes first. -/
theorem opened_cases (ps : Predicates) (seen : List String) (e : Expr) :
    (ps.opened seen e = (seen, e.parts) ∧ ∀ n es, e = .apply n es →
      ∀ p, ps.find? n = some p → n ∈ seen) ∨
    ∃ n es p, e = .apply n es ∧ ps.find? n = some p ∧ n ∉ seen ∧
      ps.opened seen e = (n :: seen, p.body :: es) := by
  cases e with
  | apply n es =>
    rw [opened]
    cases hp : ps.find? n with
    | none =>
      refine .inl ⟨rfl, ?_⟩
      rintro _ _ ⟨⟩ p hp'
      cases hp.symm.trans hp'
    | some p =>
      by_cases hn : n ∈ seen
      · refine .inl ⟨if_pos (by simpa using hn), ?_⟩
        rintro _ _ ⟨⟩ _ _
        exact hn
      · exact .inr ⟨n, es, p, rfl, hp, hn, if_neg (by simpa using hn)⟩
  | _ => exact .inl ⟨rfl, fun _ _ h => nomatch h⟩

theorem leads_of_mem_opened (h : f ∈ (ps.opened seen e).2) : ps.Leads e f := by
  rcases ps.opened_cases seen e with ⟨hopen, -⟩ | ⟨n, es, p, rfl, hp, -, hopen⟩
  · rw [hopen] at h
    exact .part h
  · rw [hopen] at h
    rcases List.mem_cons.1 h with rfl | h
    · exact .body es hp
    · exact .part h

theorem subset_opened (ps : Predicates) (seen : List String)
    (e : Expr) : seen ⊆ (ps.opened seen e).1 := by
  rcases ps.opened_cases seen e with ⟨hopen, -⟩ | ⟨n, es, p, -, -, -, hopen⟩
  · rw [hopen]
    exact List.Subset.refl _
  · rw [hopen]
    exact List.subset_cons_self _ _

theorem Scans.subset (h : ps.Scans seen es b seen') : seen ⊆ seen' := by
  induction h with
  | done | found => exact List.Subset.refl _
  | stop _ _ _ ih => exact List.Subset.trans (ps.subset_opened _ _) ih
  | next _ _ _ ihin ihrest =>
    exact List.Subset.trans (ps.subset_opened _ _) (List.Subset.trans ihin ihrest)

/-- A quantifier that is found is within reach. -/
theorem Scans.quantifies (h : ps.Scans seen es b seen') (hb : b = true) :
    ∃ e ∈ es, ps.Quantifies e := by
  induction h with
  | done => cases hb
  | found _ q bs e es => exact ⟨_, List.mem_cons_self, q, bs, e, .refl⟩
  | stop es _ _ ih =>
    obtain ⟨f, hf, hq⟩ := ih hb
    exact ⟨_, List.mem_cons_self, hq.of_leads (leads_of_mem_opened hf)⟩
  | next _ _ _ _ ih =>
    obtain ⟨f, hf, hq⟩ := ih hb
    exact ⟨f, List.mem_cons_of_mem _ hf, hq⟩

/-- Clean for the definitions whose names were seen. -/
abbrev CleanIn (ps : Predicates) (seen : List String) (e : Expr) : Prop :=
  ps.Clean (fun p => ∃ n ∈ seen, ps.find? n = some p) e

/-- An expression is clean for the names that were seen when all that it was opened to is. -/
theorem cleanIn_of_opened (he : ∀ q bs f, e ≠ .quant q bs f) (hseen : (ps.opened seen e).1 ⊆ seen')
    (h : ∀ f ∈ (ps.opened seen e).2, ps.CleanIn seen' f) : ps.CleanIn seen' e := by
  rcases ps.opened_cases seen e with ⟨hopen, hold⟩ | ⟨n, es, p, rfl, hp, -, hopen⟩
  · rw [hopen] at h hseen
    exact clean_iff.2 ⟨he, h, fun n es happly p hp => ⟨n, hseen (hold n es happly p hp), hp⟩⟩
  · rw [hopen] at h hseen
    refine clean_iff.2 ⟨he, fun f hf => h f (List.mem_cons_of_mem _ hf), ?_⟩
    rintro _ _ ⟨⟩ p' hp'
    exact ⟨n, hseen List.mem_cons_self, hp'⟩

/-- A scan that finds nothing went through clean expressions, and the names that it adds to those
seen before have clean bodies. A definition whose body was being scanned was passed over where it
was applied again: the body is clean for the names seen in the end. -/
theorem Scans.clean (h : ps.Scans seen es b seen') (hb : b = false) :
    (∀ e ∈ es, ps.CleanIn seen' e) ∧ ∀ n ∈ seen', n ∉ seen → ∀ p, ps.find? n = some p →
      ps.CleanIn seen' p.body := by
  induction h with
  | done seen => exact ⟨fun e he => absurd he List.not_mem_nil, fun n hn hnew => absurd hn hnew⟩
  | found | stop => cases hb
  | @next seen mid seen' e es b he hin hrest ihin ihrest =>
    obtain ⟨hopened, hbodies⟩ := ihin rfl
    obtain ⟨hes, hlater⟩ := ihrest hb
    have hmono : ∀ {f}, ps.CleanIn mid f → ps.CleanIn seen' f :=
      fun hf => hf.mono fun _ ⟨n, hn, hp⟩ => ⟨n, hrest.subset hn, hp⟩
    refine ⟨fun f hf => ?_, fun n hn hnew p hp => ?_⟩
    · rcases List.mem_cons.1 hf with rfl | hf
      · exact hmono (cleanIn_of_opened he hin.subset hopened)
      · exact hes f hf
    · -- the name was added below the first expression, as that of its own definition or further
      -- down, or it was added later
      by_cases hmid : n ∈ mid
      · refine hmono ?_
        rcases ps.opened_cases seen e with ⟨hopen, -⟩ | ⟨m, args, p', -, hp', -, hopen⟩
        · rw [hopen] at hbodies
          exact hbodies n hmid hnew p hp
        · rw [hopen] at hbodies hopened
          by_cases hm : n = m
          · obtain rfl : p' = p := Option.some.inj (hp'.symm.trans (hm ▸ hp))
            exact hopened p'.body List.mem_cons_self
          · exact hbodies n hmid (fun h => (List.mem_cons.1 h).elim hm hnew) p hp
      · exact hlater n hn hmid p hp

/-- From nothing seen, the scan finds exactly the quantifiers within reach. -/
theorem Scans.iff_quantifies (h : ps.Scans [] [e] b seen') : b = true ↔ ps.Quantifies e := by
  constructor
  · intro hb
    obtain ⟨f, hf, hq⟩ := h.quantifies hb
    exact List.mem_singleton.1 hf ▸ hq
  · intro hq
    by_contra hb
    obtain ⟨hes, hbodies⟩ := h.clean (Bool.eq_false_iff.2 hb)
    exact (hes e List.mem_cons_self).not_quantifies
      (fun p ⟨n, hn, hp⟩ => hbodies n hn List.not_mem_nil p hp) hq

theorem unseen_le (h : seen ⊆ seen') : ps.unseen seen' ≤ ps.unseen seen := by
  refine (List.monotone_filter_right ps fun p hp => ?_).length_le
  simp only [decide_eq_true_eq] at hp ⊢
  exact fun hmem => hp (h hmem)

theorem unseen_cons_lt (hp : ps.find? n = some p) (hn : n ∉ seen) :
    ps.unseen (n :: seen) < ps.unseen seen := by
  have hvisit : visit ps seen [n] = (n :: seen, [p]) := visit_cons_new hn hp
  have h := @unseen_visit_lt ps seen [n]
  rw [hvisit] at h
  exact h (List.cons_ne_nil _ _)

theorem exists_scans_cons (hin : ∃ b mid, ps.Scans (ps.opened seen e).1 (ps.opened seen e).2 b mid)
    (hrest : ∀ mid, seen ⊆ mid → ∃ b seen', ps.Scans mid es b seen') :
    ∃ b seen', ps.Scans seen (e :: es) b seen' := by
  by_cases he : ∃ q bs f, e = .quant q bs f
  · obtain ⟨q, bs, f, rfl⟩ := he
    exact ⟨true, seen, .found seen q bs f es⟩
  · have he' : ∀ q bs f, e ≠ .quant q bs f := fun q bs f h => he ⟨q, bs, f, h⟩
    obtain ⟨b, mid, hin⟩ := hin
    cases b with
    | true => exact ⟨true, mid, .stop es he' hin⟩
    | false =>
      obtain ⟨b, seen', hrest⟩ := hrest mid (List.Subset.trans (ps.subset_opened seen e) hin.subset)
      exact ⟨b, seen', .next he' hin hrest⟩

/-- The scan ends: going into an expression leaves fewer definitions that were not seen, or as many
and less to go through. -/
theorem exists_scans (ps : Predicates) (seen : List String) (es : List Expr) :
    ∃ b seen', ps.Scans seen es b seen' := by
  suffices ∀ m k seen es, ps.unseen seen < m → Expr.sizes es < k →
    ∃ b seen', ps.Scans seen es b seen' from
    this _ _ seen es (Nat.lt_succ_self _) (Nat.lt_succ_self _)
  intro m
  induction m with
  | zero => exact fun _ _ _ hm => absurd hm (Nat.not_lt_zero _)
  | succ m ihm =>
    intro k
    induction k with
    | zero => exact fun _ _ _ hk => absurd hk (Nat.not_lt_zero _)
    | succ k ihk =>
      intro seen es hm hk
      cases es with
      | nil => exact ⟨false, seen, .done seen⟩
      | cons e es =>
        have hsize : Expr.sizes (e :: es) = Expr.sizes e.parts + 1 + Expr.sizes es := by
          rw [Expr.sizes, Expr.size_eq, ← Expr.sizes_eq]
        refine exists_scans_cons ?_ fun mid hmid =>
          ihk mid es (Nat.lt_of_le_of_lt (unseen_le hmid) hm) (by omega)
        rcases ps.opened_cases seen e with ⟨hopen, -⟩ | ⟨n, args, p, -, hp, hn, hopen⟩
        · rw [hopen]
          exact ihk seen e.parts hm (by omega)
        · rw [hopen]
          -- the body may be larger than all that was left, but there is one definition less to come
          have hlt := unseen_cons_lt hp hn
          exact ihm _ (n :: seen) (p.body :: args) (by omega) (Nat.lt_succ_self _)

end Scans

end Predicates

/-- What the rounds of the search reach, where they find no quantifier, is clean. -/
theorem clean_of_quantified {ps : Predicates} {e : Expr} (h : quantified ps e = false) :
    ps.Clean (· ∈ ps.reached e) e ∧ ∀ p ∈ ps.reached e, ps.Clean (· ∈ ps.reached e) p.body := by
  have hclean : ∀ {f : Expr}, f.Plain ps (ps.reached e) → ps.Clean (· ∈ ps.reached e) f := fun hf =>
    ⟨hf.plain, fun n hn p hp => (hf.covered n hn p hp).resolve_left List.not_mem_nil⟩
  obtain ⟨he, hbodies⟩ := plain_of_quantified h
  exact ⟨hclean he, fun p hp => hclean (hbodies p hp)⟩

theorem quantified_iff {ps : Predicates} {e : Expr} : quantified ps e = true ↔ ps.Quantifies e := by
  constructor
  · intro h
    by_contra hno
    have he : e.hasQuantifier = false :=
      Bool.eq_false_iff.2 fun he => hno (Predicates.quantifies_of_hasQuantifier he)
    refine Bool.eq_false_iff.1 (quantified_eq_false he fun p hp => Bool.eq_false_iff.2
      fun hbody => hno ?_) h
    obtain ⟨q, bs, f, hf⟩ := @Predicates.quantifies_of_hasQuantifier ps _ hbody
    exact ⟨q, bs, f, hp.leads.trans hf⟩
  · intro h
    by_contra hno
    obtain ⟨he, hbodies⟩ := clean_of_quantified (Bool.eq_false_iff.2 hno)
    exact he.not_quantifies hbodies h

/-! ## Evaluation -/

namespace Evaluator
variable {ps : Predicates} {A : Predicate → Prop} {e : Expr}

theorem evalWith_clean {ev ev' : Evaluator} {enter enter' : Enter} (he : ps.Clean A e)
    (henter : ∀ n k, (∀ p, ps.find? n = some p → A p) → enter n k = enter' n k) (env : Env) :
    evalWith ev enter e env = evalWith ev' enter' e env := by
  induction e with
  | bool | int | var | select | length | update => rfl
  | unary op e ih =>
    rw [evalWith_unary, evalWith_unary, ih ((Predicates.clean_iff.1 he).2.1 _ List.mem_cons_self)]
  | binary op l r hl hr =>
    have hparts := (Predicates.clean_iff.1 he).2.1
    rw [evalWith_binary, evalWith_binary, hl (hparts l List.mem_cons_self),
      hr (hparts r (List.mem_cons_of_mem _ List.mem_cons_self))]
  | apply n es ih =>
    obtain ⟨-, hparts, hknown⟩ := Predicates.clean_iff.1 he
    rw [evalWith_apply, evalWith_apply, henter n es.length (hknown n es rfl),
      mapM_congr (List.map_congr_left fun f hf => ih f hf (hparts f hf))]
  | quant q bs e => exact absurd rfl ((Predicates.clean_iff.1 he).1 q bs e)

/-- Where all bodies are clean, a definition of `A` is entered alike for all domains. -/
theorem enterAt_clean (hA : ∀ p, A p → ps.Clean A p.body) (lo hi lo' hi' : Int) (depth : Nat)
    (n : String) (k : Nat) (hn : ∀ p, ps.find? n = some p → A p) :
    enterAt ⟨ps, lo, hi⟩ depth n k = enterAt ⟨ps, lo', hi'⟩ depth n k := by
  induction depth generalizing n k with
  | zero => rfl
  | succ depth ih =>
    rw [enterAt, enterAt]
    cases hp : ps.find? n with
    | none => rfl
    | some p =>
      have hbody : evalWith ⟨ps, lo, hi⟩ (enterAt ⟨ps, lo, hi⟩ depth) p.body =
          evalWith ⟨ps, lo', hi'⟩ (enterAt ⟨ps, lo', hi'⟩ depth) p.body :=
        funext (evalWith_clean (hA p (hn p hp)) ih)
      dsimp only
      rw [hbody]

theorem eval_clean (hA : ∀ p, A p → ps.Clean A p.body) (he : ps.Clean A e) (lo hi lo' hi' : Int)
    (a : Assignment) : eval ⟨ps, lo, hi⟩ e a = eval ⟨ps, lo', hi'⟩ e a :=
  evalWith_clean he (enterAt_clean hA lo hi lo' hi' maxDepth) a.env

end Evaluator

/-- **The scan for quantifiers is exact.** For every table of definitions, recursive ones included,
and every expression

* the depth-first scan that enters each definition once comes to an end, and its answer is that of
  the search in rounds;
* the answer is yes exactly if a quantifier can be reached through parts of expressions and bodies
  of applied definitions;
* if it is no, the expression has the same value or the same error whatever integers quantifiers
  range over. -/
theorem quantified_exact (ps : Predicates) (e : Expr) :
    ((∃ b seen, ps.Scans [] [e] b seen) ∧ ∀ b seen, ps.Scans [] [e] b seen → b = quantified ps e) ∧
    (quantified ps e = true ↔ ∃ q bs f, Relation.ReflTransGen ps.Leads e (.quant q bs f)) ∧
    (quantified ps e = false → ∀ lo hi lo' hi' a,
      Evaluator.eval ⟨ps, lo, hi⟩ e a = Evaluator.eval ⟨ps, lo', hi'⟩ e a) := by
  refine ⟨⟨ps.exists_scans [] [e], fun b seen h => ?_⟩, quantified_iff, fun h => ?_⟩
  · rw [Bool.eq_iff_iff, h.iff_quantifies, quantified_iff]
  · obtain ⟨he, hbodies⟩ := clean_of_quantified h
    exact Evaluator.eval_clean hbodies he

namespace Alternating

def n : Var := ⟨"n", .int⟩

/-- `n == 0 || odd(n - 1)` -/
def even : Predicate :=
  ⟨"even", [n], .or (.binary .eq (.var n) (.int 0)) (.apply "odd" [.binary .sub (.var n) (.int 1)])⟩

/-- `n != 0 && even(n - 1)` -/
def odd : Predicate :=
  ⟨"odd", [n],
    .and (.binary .ne (.var n) (.int 0)) (.apply "even" [.binary .sub (.var n) (.int 1)])⟩

/-- `odd(n) || forall n. even(n)` -/
def always : Predicate :=
  ⟨"always", [n], .or (.apply "odd" [.var n]) (.quant .all [n] (.apply "even" [.var n]))⟩

def table : Predicates := [even, odd, always]

end Alternating

/-- Two definitions that apply each other are clean; a third one has a quantifier behind them. -/
theorem quantified_exact_alternating :
    (quantified Alternating.table (.apply "even" [.int 9]) = false ∧ ∀ lo hi lo' hi' a,
      Evaluator.eval ⟨Alternating.table, lo, hi⟩ (.apply "even" [.int 9]) a =
        Evaluator.eval ⟨Alternating.table, lo', hi'⟩ (.apply "even" [.int 9]) a) ∧
    quantified Alternating.table (.apply "always" [.int 9]) = true ∧
      ∃ q bs f, Relation.ReflTransGen (Predicates.Leads Alternating.table)
        (.apply "always" [.int 9]) (.quant q bs f) :=
  ⟨⟨by decide, (quantified_exact _ _).2.2 (by decide)⟩, by decide,
    (quantified_exact _ _).2.1.1 (by decide)⟩

end Cutpoint
