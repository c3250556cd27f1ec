import Mathlib.Data.List.Lex
import Cutpoint.Condition.Termination
import Cutpoint.Proofs.Meaning.Basic

/-!
# The lexicographic comparison

* `Datum.Below`: a tuple of values is smaller than another in the lexicographic order;
* `Interp.holds_lexDecrease`, `Interp.holds_nonNegative`: what the formulas for ranking functions
  say;
* `Datum.drops_wellFounded`: tuples of a length cannot become smaller forever without a negative
  component.
-/

set_option autoImplicit false

namespace Cutpoint

namespace Datum

/-- The integers are smaller in the lexicographic order. -/
def Below : List Datum → List Datum → Prop := List.Lex fun c d => c.toInt < d.toInt

def NonNegative (ds : List Datum) : Prop := ∀ d ∈ ds, 0 ≤ d.toInt

theorem not_below_nil (ds : List Datum) : ¬ Below ds [] := List.not_lex_nil

theorem below_cons {c d : Datum} {cs ds : List Datum} :
    Below (c :: cs) (d :: ds) ↔ c.toInt < d.toInt ∨ (c = d ∧ Below cs ds) :=
  List.cons_lex_cons_iff

end Datum

/-! ## Formulas -/

namespace Interp
variable {I : Interp} {σ : State}

theorem holds_lt (x y : Expr) :
    I.Holds σ (.binary .lt x y) ↔ (I.value σ x).toInt < (I.value σ y).toInt :=
  decide_eq_true_iff

open Classical in
theorem holds_eq (x y : Expr) : I.Holds σ (.binary .eq x y) ↔ I.value σ x = I.value σ y :=
  decide_eq_true_iff

theorem holds_ge (x y : Expr) :
    I.Holds σ (.binary .ge x y) ↔ (I.value σ y).toInt ≤ (I.value σ x).toInt :=
  decide_eq_true_iff

/-- One of the parts holds if what was met before is equal and the rest is smaller. -/
theorem holds_lexParts {before : List Expr} {xs ys : List Expr} (hlen : xs.length = ys.length) :
    (∃ e ∈ lexParts before (xs.zip ys), I.Holds σ e) ↔
      (∀ b ∈ before, I.Holds σ b) ∧ Datum.Below (I.values σ xs) (I.values σ ys) := by
  induction xs generalizing before ys with
  | nil =>
    cases List.length_eq_zero_iff.1 hlen.symm
    simp [lexParts, Datum.not_below_nil]
  | cons x xs ih =>
    obtain ⟨y, ys, rfl⟩ := List.exists_cons_of_length_eq_add_one hlen.symm
    rw [List.zip_cons_cons, lexParts, List.exists_mem_cons_iff, ih (by simpa using hlen),
      holds_conj, List.forall_mem_cons, List.forall_mem_append, holds_lt, values_cons, values_cons,
      Datum.below_cons]
    simp only [List.forall_mem_singleton, holds_eq]
    constructor
    · rintro (⟨hlt, hbefore⟩ | ⟨⟨hbefore, heq⟩, hrest⟩)
      · exact ⟨hbefore, Or.inl hlt⟩
      · exact ⟨hbefore, Or.inr ⟨heq, hrest⟩⟩
    · rintro ⟨hbefore, hlt | ⟨heq, hrest⟩⟩
      · exact Or.inl ⟨hlt, hbefore⟩
      · exact Or.inr ⟨⟨hbefore, heq⟩, hrest⟩

/-- The comparison of expressions says that their values are smaller in the lexicographic order. -/
theorem holds_lexDecrease {xs ys : List Expr} (hlen : xs.length = ys.length) :
    I.Holds σ (lexDecrease xs ys) ↔ Datum.Below (I.values σ xs) (I.values σ ys) := by
  rw [lexDecrease, holds_disj, holds_lexParts hlen]
  exact and_iff_right (by simp)

theorem holds_nonNegative (es : List Expr) :
    I.Holds σ (nonNegative es) ↔ Datum.NonNegative (I.values σ es) := by
  rw [nonNegative, holds_conj, values_eq_map, Datum.NonNegative, List.forall_mem_map,
    List.forall_mem_map]
  simp only [holds_ge, value_int, Datum.toInt_int]

end Interp

/-! ## No descent forever -/

namespace Datum

/-- A tuple of the same length that is smaller, and not negative in any component. -/
def Drops (cs ds : List Datum) : Prop := cs.length = ds.length ∧ NonNegative cs ∧ Below cs ds

/-- A tuple is accessible if its rest is, and so is every tuple of its length with a smaller first
component. -/
theorem acc_drops_cons {d : Datum} {ds : List Datum} (hds : Acc Drops ds)
    (hd : ∀ c : Datum, 0 ≤ c.toInt → c.toInt < d.toInt → ∀ cs, cs.length = ds.length →
      Acc Drops (c :: cs)) : Acc Drops (d :: ds) := by
  induction hds with
  | intro ds _ ih =>
    refine ⟨_, ?_⟩
    rintro (_ | ⟨c, cs⟩) ⟨hlen, hnonneg, hbelow⟩
    · cases hlen
    · have hlen' : cs.length = ds.length := by simpa using hlen
      obtain ⟨hc, hcs⟩ := List.forall_mem_cons.1 hnonneg
      rcases below_cons.1 hbelow with hlt | ⟨rfl, hrest⟩
      · exact hd c hc hlt cs hlen'
      · exact ih cs ⟨hlen', hcs, hrest⟩ fun c hc hlt ks hks => hd c hc hlt ks (hks.trans hlen')

/-- Tuples cannot become smaller forever. -/
theorem drops_wellFounded : WellFounded Drops := by
  refine ⟨fun ds => ?_⟩
  induction hn : ds.length generalizing ds with
  | zero =>
    cases List.length_eq_zero_iff.1 hn
    exact ⟨_, fun cs h => absurd h.2.2 (not_below_nil cs)⟩
  | succ n ih =>
    obtain ⟨d, ds, rfl⟩ := List.exists_cons_of_length_eq_add_one hn
    have hlen : ds.length = n := by simpa using hn
    -- on the first component, which is not negative in what is smaller
    induction hm : d.toInt.toNat using Nat.strongRecOn generalizing d ds with
    | ind m ihm =>
      refine acc_drops_cons (ih ds hlen) fun c hc hlt cs hcs => ?_
      exact ihm c.toInt.toNat (by omega) c cs (by simp [hcs, hlen]) (hcs.trans hlen) rfl

end Datum

end Cutpoint
