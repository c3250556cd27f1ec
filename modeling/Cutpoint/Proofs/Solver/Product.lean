import Cutpoint.Proofs.Solver.Bounded

/-!
# Bounded search scans the product

The values of the variables form a product, which the search scans from its first assignment on
until one does not make the formula true.

* `Bounded.integers`, `Bounded.values`, `Bounded.product`: the values and the assignments in the
  order in which they are tried;
* `Bounded.product_eq_map`: the assignment with index `k` is the one at place `k` of the product;
* `Bounded.firstStop`: what the first assignment of a list says that does not make the formula true;
* `Bounded.search_eq_firstStop`: the search ends as the scan of the product does.
-/

set_option autoImplicit false

namespace Cutpoint.Bounded

/-! ## Integers by magnitude -/

/-- The integers from `-n` to `n` in the order 0, 1, -1, 2, -2, …. -/
def integers : Nat → List Int
  | 0 => [0]
  | n + 1 => integers n ++ [(n : Int) + 1, -((n : Int) + 1)]

theorem mem_integers {n : Nat} {k : Int} : k ∈ integers n ↔ -(n : Int) ≤ k ∧ k ≤ n := by
  induction n with
  | zero =>
    simp only [integers, List.mem_singleton]
    omega
  | succ n ih =>
    simp only [integers, List.mem_append, ih, List.mem_cons, List.not_mem_nil, or_false]
    omega

theorem nodup_integers (n : Nat) : (integers n).Nodup := by
  induction n with
  | zero => exact List.nodup_singleton 0
  | succ n ih =>
    refine List.nodup_append.2 ⟨ih, ?_, ?_⟩
    · simp only [List.nodup_cons, List.mem_singleton, List.not_mem_nil, not_false_eq_true,
        List.nodup_nil, and_true]
      omega
    · intro k hk m hm
      rw [mem_integers] at hk
      simp only [List.mem_cons, List.not_mem_nil, or_false] at hm
      omega

theorem integers_eq_map (n : Nat) : integers n = (List.range (2 * n + 1)).map intAt := by
  induction n with
  | zero => rfl
  | succ n ih =>
    have hodd : intAt (2 * n + 1) = (n : Int) + 1 := by
      unfold intAt
      rw [if_pos (by omega)]
      omega
    have heven : intAt (2 * n + 2) = -((n : Int) + 1) := by
      unfold intAt
      rw [if_neg (by omega)]
      omega
    have hrange : List.range (2 * (n + 1) + 1) = List.range (2 * n + 1) ++
        [2 * n + 1, 2 * n + 2] := by
      rw [List.range_succ, Nat.mul_succ, List.range_succ]
      simp
    rw [integers, ih, hrange, List.map_append, List.map_cons, List.map_cons, List.map_nil,
      hodd, heven]

/-! ## The product -/

variable (b : Bounded)

/-- The values of a variable, in the order in which they are tried. -/
def values (v : Var) : List Value :=
  if v.ty.isBool then [.bool false, .bool true] else (integers b.bound).map .int

/-- All assignments to a list of variables; the first variable changes fastest. -/
def product : List Var → List Assignment
  | [] => [[]]
  | v :: vs => (product vs).flatMap fun a => (b.values v).map fun x => (v, x) :: a

/-- The product holds every choice of a value for each variable. -/
theorem mem_product {vs : List Var} {a : Assignment} :
    a ∈ b.product vs ↔ a.map Prod.fst = vs ∧ ∀ p ∈ a, p.2 ∈ b.values p.1 := by
  induction vs generalizing a with
  | nil =>
    rw [product, List.mem_singleton, List.map_eq_nil_iff]
    exact ⟨fun h => ⟨h, by simp [h]⟩, fun h => h.1⟩
  | cons v vs ih =>
    simp only [product, List.mem_flatMap, List.mem_map, ih]
    constructor
    · rintro ⟨c, ⟨rfl, hc⟩, x, hx, rfl⟩
      exact ⟨rfl, List.forall_mem_cons.2 ⟨hx, hc⟩⟩
    · rintro ⟨hfst, ha⟩
      obtain ⟨p, c, rfl, rfl, hc⟩ := List.map_eq_cons_iff.1 hfst
      obtain ⟨hp, hrest⟩ := List.forall_mem_cons.1 ha
      exact ⟨c, ⟨hc, hrest⟩, p.2, hp, rfl⟩

theorem values_eq_map (v : Var) : b.values v = (List.range (b.size v)).map (valueAt v) := by
  unfold values size
  by_cases hbool : v.ty.isBool = true
  · have hvalue : valueAt v = fun i => .bool (i = 1) := funext fun i => if_pos hbool
    rw [if_pos hbool, if_pos hbool, hvalue]
    rfl
  · have hvalue : valueAt v = fun i => .int (intAt i) := funext fun i => if_neg hbool
    rw [if_neg hbool, if_neg hbool, hvalue, integers_eq_map, List.map_map]
    rfl

theorem nodup_values (v : Var) : (b.values v).Nodup := by
  unfold values
  split
  · decide
  · exact (nodup_integers b.bound).map fun m n h => Value.int.inj h

theorem nodup_product (vs : List Var) : (b.product vs).Nodup := by
  induction vs with
  | nil => exact List.nodup_singleton []
  | cons v vs ih =>
    refine List.nodup_flatMap.2 ⟨fun a _ => ?_, ?_⟩
    · exact (b.nodup_values v).map fun x y h => (Prod.mk.inj (List.cons.inj h).1).2
    · -- assignments that differ for the other variables differ
      refine ih.imp fun {a c} hne => List.disjoint_left.2 fun d hd hd' => ?_
      obtain ⟨x, -, rfl⟩ := List.mem_map.1 hd
      obtain ⟨y, -, hy⟩ := List.mem_map.1 hd'
      exact hne (List.cons.inj hy).2.symm

/-- The numbers below a product, by their remainders and quotients. -/
theorem map_range_mul {α : Type} (f : Nat → α) (n m : Nat) :
    (List.range (n * m)).map f =
      (List.range m).flatMap fun q => (List.range n).map fun r => f (r + n * q) := by
  induction m with
  | zero => rfl
  | succ m ih =>
    rw [Nat.mul_succ, List.range_add, List.map_append, ih, List.range_succ, List.flatMap_append]
    simp [Function.comp_def, Nat.add_comm]

theorem product_eq_map (vs : List Var) :
    b.product vs = (List.range (b.space vs)).map (b.assignmentAt vs) := by
  induction vs with
  | nil => rfl
  | cons v vs ih =>
    rw [product, ih, space, map_range_mul, List.flatMap_map, values_eq_map]
    refine List.flatMap_congr fun q _ => ?_
    rw [List.map_map]
    refine List.map_congr_left fun r hr => ?_
    exact (assignmentAt_cons_add vs (List.mem_range.1 hr) q).symm

theorem length_product (vs : List Var) : (b.product vs).length = b.space vs := by
  rw [product_eq_map, List.length_map, List.length_range]

/-! ## Scans -/

section Scans
variable (e : Expr)

/-- How the search ends at an assignment, unless this makes the formula true. -/
def stopAt (a : Assignment) : Option Search :=
  match b.evaluator.holds e a with
  | .ok true => none
  | .ok false => some (.falsified ⟨a.map fun p => (p.1.name, p.2.text)⟩)
  | .error err => some (.gaveUp (.evaluation err))

/-- How a scan of a list of assignments ends: at the first one that does not make the formula
true. -/
def firstStop (as : List Assignment) : Search := (as.findSome? (b.stopAt e)).getD .exhausted

variable {e}

theorem stopAt_eq_none {a : Assignment} :
    b.stopAt e a = none ↔ b.evaluator.holds e a = .ok true := by
  unfold stopAt
  split <;> simp_all

theorem stopAt_ne_exhausted (a : Assignment) : b.stopAt e a ≠ some .exhausted := by
  unfold stopAt
  split <;> simp

theorem firstStop_cons_of_none {a : Assignment} (h : b.stopAt e a = none) (as : List Assignment) :
    b.firstStop e (a :: as) = b.firstStop e as := by
  rw [firstStop, List.findSome?_cons, h, firstStop]

theorem firstStop_cons_of_some {a : Assignment} {r : Search} (h : b.stopAt e a = some r)
    (as : List Assignment) : b.firstStop e (a :: as) = r := by
  rw [firstStop, List.findSome?_cons, h, Option.getD_some]

theorem firstStop_eq_exhausted {as : List Assignment} :
    b.firstStop e as = .exhausted ↔ ∀ a ∈ as, b.evaluator.holds e a = .ok true := by
  induction as with
  | nil => simp [firstStop]
  | cons a as ih =>
    rw [List.forall_mem_cons, ← b.stopAt_eq_none]
    cases h : b.stopAt e a with
    | none => rw [b.firstStop_cons_of_none h, ih, and_iff_right rfl]
    | some r =>
      rw [b.firstStop_cons_of_some h]
      have hr : r ≠ .exhausted := fun heq => b.stopAt_ne_exhausted a (heq ▸ h)
      simp [hr]

theorem scan_eq_firstStop (vs : List Var) (count k : Nat) :
    b.scan vs e count k = b.firstStop e ((List.range' k count).map (b.assignmentAt vs)) := by
  induction count generalizing k with
  | zero => rfl
  | succ count ih =>
    rw [List.range'_succ, List.map_cons, scan]
    split
    · next h => rw [b.firstStop_cons_of_none (b.stopAt_eq_none.2 h), ih]
    · next h => exact (b.firstStop_cons_of_some (by rw [stopAt, h]) _).symm
    · next h => exact (b.firstStop_cons_of_some (by rw [stopAt, h]) _).symm

theorem search_eq_firstStop (harray : ∀ v ∈ e.free, v.ty.isArray = false)
    (hplain : quantified b.predicates e = false) (hspace : b.space e.free ≤ b.cap) :
    b.search e = b.firstStop e (b.product e.free) := by
  have hfind : (e.free.find? fun v => v.ty.isArray) = none :=
    List.find?_eq_none.2 fun v hv => by simp [harray v hv]
  unfold search
  dsimp only
  rw [hfind]
  dsimp only
  rw [if_neg (by simp [hplain]), if_neg (Nat.not_lt.2 hspace), scan_eq_firstStop, product_eq_map,
    List.range_eq_range']

end Scans

end Cutpoint.Bounded
