import Mathlib.Order.WellFounded
import Cutpoint.Proofs.Condition.Lex
import Cutpoint.Proofs.Eval.Basic

/-!
# Evaluation of the lexicographic comparison

Tuples of integers are compared as lists: `ms < ns` if they differ first at a place where `ms` has
the smaller integer.

* `Evaluator.Truths`, `Evaluator.Ints`: the truth values and the integers that formulas and terms
  evaluate to;
* `Evaluator.eval_conj`, `Evaluator.eval_disj`: joined formulas;
* `Evaluator.eval_lexDecrease`, `Evaluator.eval_nonNegative`: the formulas for ranking functions
  evaluate to what they say;
* `Evaluator.Descends`: tuples for which the condition on ranking functions evaluates to true;
* `Evaluator.lexDecrease_descent`: the comparison is exact, and tuples of a length cannot descend
  forever.
-/

set_option autoImplicit false

namespace Cutpoint

namespace Evaluator
variable {ev : Evaluator} {a : Assignment}

/-! ## Joined formulas -/

/-- The formulas evaluate to the given truth values. -/
def Truths (ev : Evaluator) (a : Assignment) (es : List Expr) (bs : List Bool) : Prop :=
  List.Forall₂ (fun e b => ev.eval e a = .ok (.bool b)) es bs

theorem eval_binary {op : BinOp} {l r : Expr} {v w : Value} (hl : ev.eval l a = .ok v)
    (hr : ev.eval r a = .ok w) : ev.eval (.binary op l r) a = op.complete v (.ok w) := by
  have hbinary := ev.evalWith_binary (enterAt ev maxDepth) a.env op l r
  rw [show evalWith ev (enterAt ev maxDepth) l a.env = .ok v from hl,
    show evalWith ev (enterAt ev maxDepth) r a.env = .ok w from hr] at hbinary
  exact hbinary

/-- Formulas that are joined from the left by an operator on truth values. -/
theorem eval_foldl {op : BinOp} {f : Bool → Bool → Bool}
    (hop : ∀ b c, op.complete (.bool b) (.ok (.bool c)) = .ok (.bool (f b c))) {es : List Expr}
    {bs : List Bool} (h : ev.Truths a es bs) {d : Expr} {c : Bool}
    (hd : ev.eval d a = .ok (.bool c)) :
    ev.eval (es.foldl (.binary op) d) a = .ok (.bool (bs.foldl f c)) := by
  induction h generalizing d c with
  | nil => exact hd
  | cons he _ ih => exact ih ((eval_binary hd he).trans (hop _ _))

theorem eval_and {l r : Expr} {b c : Bool} (hl : ev.eval l a = .ok (.bool b))
    (hr : ev.eval r a = .ok (.bool c)) : ev.eval (.and l r) a = .ok (.bool (b && c)) := by
  refine (eval_binary hl hr).trans ?_
  cases b <;> rfl

theorem eval_conj {es : List Expr} {bs : List Bool} (h : ev.Truths a es bs) :
    ev.eval (.conj es) a = .ok (.bool (bs.all id)) := by
  have hall : ∀ (bs : List Bool) c, bs.foldl (· && ·) c = (c && bs.all id) := by
    intro bs
    induction bs with
    | nil => simp
    | cons b bs ih => simp [ih, Bool.and_assoc]
  cases h with
  | nil => rfl
  | @cons e b es bs he hes =>
    have hfold : ev.eval (es.foldl .and e) a = .ok (.bool (bs.foldl (· && ·) b)) :=
      eval_foldl (fun b c => by cases b <;> rfl) hes he
    rw [hall] at hfold
    exact hfold

theorem eval_disj {es : List Expr} {bs : List Bool} (h : ev.Truths a es bs) :
    ev.eval (.disj es) a = .ok (.bool (bs.any id)) := by
  have hany : ∀ (bs : List Bool) c, bs.foldl (· || ·) c = (c || bs.any id) := by
    intro bs
    induction bs with
    | nil => simp
    | cons b bs ih => simp [ih, Bool.or_assoc]
  cases h with
  | nil => rfl
  | @cons e b es bs he hes =>
    have hfold : ev.eval (es.foldl .or e) a = .ok (.bool (bs.foldl (· || ·) b)) :=
      eval_foldl (fun b c => by cases b <;> rfl) hes he
    rw [hany] at hfold
    exact hfold

/-! ## Ranking functions -/

/-- The terms evaluate to the given integers. -/
def Ints (ev : Evaluator) (a : Assignment) (es : List Expr) (ns : List Int) : Prop :=
  List.Forall₂ (fun e n => ev.eval e a = .ok (.int n)) es ns

/-- One of the parts is true if what was met before is true and the rest is smaller. -/
theorem truths_lexParts {before xs ys : List Expr} {bs : List Bool} {ms ns : List Int}
    (hbefore : ev.Truths a before bs) (hxs : ev.Ints a xs ms) (hys : ev.Ints a ys ns)
    (hlen : xs.length = ys.length) :
    ∃ cs, ev.Truths a (lexParts before (xs.zip ys)) cs ∧
      cs.any id = (bs.all id && decide (ms < ns)) := by
  induction hxs generalizing before ys bs ns with
  | nil =>
    cases hys with
    | nil => exact ⟨[], .nil, by simp⟩
    | cons => cases hlen
  | @cons x m xs ms hx _ ih =>
    cases hys with
    | nil => cases hlen
    | @cons y n ys ns hy hys =>
      have hlt : ev.eval (.binary .lt x y) a = .ok (.bool (decide (m < n))) := eval_binary hx hy
      have heq : ev.eval (.binary .eq x y) a = .ok (.bool (decide (m = n))) := eval_binary hx hy
      -- the later parts say in addition that these two are equal
      obtain ⟨cs, hcs, hany⟩ :=
        ih (List.rel_append hbefore (.cons heq .nil)) hys (by simpa using hlen)
      refine ⟨_, .cons (eval_conj (.cons hlt hbefore)) hcs, ?_⟩
      rw [List.any_cons, hany]
      by_cases hlt : m < n <;> by_cases heq : m = n <;> simp [hlt, heq, List.cons_lt_cons_iff]

theorem eval_lexDecrease {xs ys : List Expr} {ms ns : List Int} (hxs : ev.Ints a xs ms)
    (hys : ev.Ints a ys ns) (hlen : xs.length = ys.length) :
    ev.eval (lexDecrease xs ys) a = .ok (.bool (decide (ms < ns))) := by
  obtain ⟨cs, hcs, hany⟩ := truths_lexParts .nil hxs hys hlen
  rw [lexDecrease, eval_disj hcs, hany]
  rfl

theorem eval_nonNegative {es : List Expr} {ns : List Int} (h : ev.Ints a es ns) :
    ev.eval (nonNegative es) a = .ok (.bool (ns.all fun n => decide (0 ≤ n))) := by
  have hzero : ev.eval (.int 0) a = .ok (.int 0) := rfl
  have htruths : ev.Truths a (es.map fun e => .binary .ge e (.int 0))
      (ns.map fun n => decide (0 ≤ n)) := by
    induction h with
    | nil => exact .nil
    | @cons e n es ns he _ ih =>
      have hge : ev.eval (.binary .ge e (.int 0)) a = .ok (.bool (decide (0 ≤ n))) :=
        eval_binary he hzero
      exact .cons hge ih
  rw [nonNegative, eval_conj htruths, List.all_map]
  rfl

/-! ## No descent forever -/

/-- The condition on ranking functions evaluates to true where they lead from the integers `ns` to
`ms`. -/
def Descends (ev : Evaluator) (ms ns : List Int) : Prop :=
  ∃ (a : Assignment) (exit entry : List Expr) (c : Expr), ev.Ints a exit ms ∧ ev.Ints a entry ns ∧
    lexDecrease? exit entry = some c ∧ ev.eval (.and c (nonNegative exit)) a = .ok (.bool true)

theorem lexDecrease?_eq_some {exit entry : List Expr} (h : exit.length = entry.length) :
    lexDecrease? exit entry = some (lexDecrease exit entry) := if_neg (by omega)

theorem ints_literals (ev : Evaluator) (a : Assignment) (ns : List Int) :
    ev.Ints a (ns.map .int) ns := by
  induction ns with
  | nil => exact .nil
  | cons n ns ih => exact .cons rfl ih

/-- The condition says that the integers become smaller in the lexicographic order, and that none of
them is then negative. -/
theorem descends_iff {ms ns : List Int} (hlen : ms.length = ns.length) :
    ev.Descends ms ns ↔ ms < ns ∧ ∀ m ∈ ms, 0 ≤ m := by
  have hvalue : ∀ {a : Assignment} {exit entry : List Expr},
      ev.Ints a exit ms → ev.Ints a entry ns →
      (ev.eval (.and (lexDecrease exit entry) (nonNegative exit)) a = .ok (.bool true) ↔
        ms < ns ∧ ∀ m ∈ ms, 0 ≤ m) := by
    intro a exit entry hexit hentry
    rw [eval_and (eval_lexDecrease hexit hentry (by rw [hexit.length_eq, hentry.length_eq, hlen]))
      (eval_nonNegative hexit)]
    simp
  constructor
  · rintro ⟨a, exit, entry, c, hexit, hentry, hc, h⟩
    rw [lexDecrease?_eq_some (by rw [hexit.length_eq, hentry.length_eq, hlen])] at hc
    obtain rfl := Option.some.inj hc
    exact (hvalue hexit hentry).1 h
  · intro h
    have hliterals := ev.ints_literals []
    exact ⟨[], _, _, _, hliterals ms, hliterals ns, lexDecrease?_eq_some (by simpa using hlen),
      (hvalue (hliterals ms) (hliterals ns)).2 h⟩

end Evaluator

namespace Datum

theorem below_map_int {ms ns : List Int} : Below (ms.map int) (ns.map int) ↔ ms < ns := by
  induction ms generalizing ns with
  | nil =>
    cases ns with
    | nil => exact iff_of_false (not_below_nil _) (List.lt_irrefl _)
    | cons n ns => exact iff_of_true .nil (List.nil_lt_cons n ns)
  | cons m ms ih =>
    cases ns with
    | nil => exact iff_of_false (not_below_nil _) (List.not_lt_nil _)
    | cons n ns =>
      rw [List.map_cons, List.map_cons, below_cons, ih, List.cons_lt_cons_iff, toInt_int,
        toInt_int, int_inj]

/-- Integers that become smaller in the lexicographic order drop as values of ranking functions
do. -/
theorem drops_map_int {ms ns : List Int} (hlen : ms.length = ns.length) (hlt : ms < ns)
    (h : ∀ m ∈ ms, 0 ≤ m) : Drops (ms.map int) (ns.map int) :=
  ⟨by simpa using hlen, List.forall_mem_map.2 h, below_map_int.2 hlt⟩

end Datum

/-- **The condition on ranking functions is a well-founded lexicographic order**: for expressions
with integers as values, as many on both sides, the comparison exists and evaluates to whether the
first are smaller in the lexicographic order. The condition relates the tuples of that length which
become smaller and are then not negative, and there is no infinite sequence of such steps, wherever
it starts. -/
theorem Evaluator.lexDecrease_descent (ev : Evaluator) (n : Nat) :
    (∀ (a : Assignment) (exit entry : List Expr) (ms ns : List Int),
      exit.length = n → entry.length = n → ev.Ints a exit ms → ev.Ints a entry ns →
        ∃ c, lexDecrease? exit entry = some c ∧ ev.eval c a = .ok (.bool (decide (ms < ns)))) ∧
    (∀ ms ns : List Int, ms.length = n → ns.length = n →
      (ev.Descends ms ns ↔ ms < ns ∧ ∀ m ∈ ms, 0 ≤ m)) ∧
    ¬ ∃ t : Nat → List Int, ∀ k, (t k).length = n ∧ ev.Descends (t (k + 1)) (t k) := by
  refine ⟨fun a exit entry ms ns hexit hentry hms hns => ?_,
    fun ms ns hms hns => descends_iff (hms.trans hns.symm), ?_⟩
  · have hlen : exit.length = entry.length := hexit.trans hentry.symm
    exact ⟨_, lexDecrease?_eq_some hlen, eval_lexDecrease hms hns hlen⟩
  · rintro ⟨t, ht⟩
    have hwf : IsWellFounded (List Datum) Datum.Drops := ⟨Datum.drops_wellFounded⟩
    obtain ⟨k, hk⟩ := WellFounded.not_rel_apply_succ (r := Datum.Drops) fun k => (t k).map Datum.int
    have hlen : (t (k + 1)).length = (t k).length := (ht (k + 1)).1.trans (ht k).1.symm
    obtain ⟨hlt, hnonneg⟩ := (descends_iff hlen).1 (ht k).2
    exact hk (Datum.drops_map_int hlen hlt hnonneg)

namespace Rounds

def i : Var := ⟨"i", .int⟩

def j : Var := ⟨"j", .int⟩

/-- The inner loop starts anew with each round of the outer one. -/
def exit : List Expr := [.binary .sub (.var i) (.int 1), .int 100]

def entry : List Expr := [.var i, .var j]

def evaluator : Evaluator := ⟨[], 0, 0⟩

end Rounds

/-- From 1 and -5 to 0 and 100. -/
theorem Evaluator.lexDecrease_descent_rounds :
    (∃ c, lexDecrease? Rounds.exit Rounds.entry = some c ∧
      Rounds.evaluator.eval c [(Rounds.i, .int 1), (Rounds.j, .int (-5))] =
        .ok (.bool (decide ([0, 100] < [1, -5])))) ∧
    Rounds.evaluator.Descends [0, 100] [1, -5] ∧ ¬ Rounds.evaluator.Descends [0, -5] [1, 100] := by
  obtain ⟨hcompare, hdescends, -⟩ := Evaluator.lexDecrease_descent Rounds.evaluator 2
  refine ⟨?_, (hdescends _ _ rfl rfl).2 (by decide), fun h => ?_⟩
  · exact hcompare _ Rounds.exit Rounds.entry _ _ rfl rfl (.cons rfl (.cons rfl .nil))
      (.cons rfl (.cons rfl .nil))
  · exact absurd ((hdescends _ _ rfl rfl).1 h) (by decide)

end Cutpoint
