import Cutpoint.Proofs.Solver.Product

/-!
# Bounded search as an odometer

The search can go through the product with a digit for each variable: a turn raises the lowest
digit, one that is at its end goes back to zero and carries over into the next, and a carry past the
last digit is the end. All numbers are words of 64 bits.

* `Bounded.odometer?`: the search with digits;
* `Bounded.advance?_digits`: one turn leads from the digits of `k` to those of `k + 1`, and carries
  past the last exactly at the end;
* `Bounded.run?_digits`: all turns from `k` on;
* `Bounded.search_product`: bounded search is the scan of the product, tries nothing twice, and fits
  into its words.
-/

set_option autoImplicit false

namespace Cutpoint

/-! ## Words -/

namespace Word64

/-- The number, if it fits into a word without a sign. -/
def unsigned? (n : Nat) : Option Nat := if Unsigned n then some n else none

/-- The number, if it fits into a word with a sign. -/
def signed? (n : Int) : Option Int := if Signed n then some n else none

theorem unsigned?_of_unsigned {n : Nat} (h : Unsigned n) : unsigned? n = some n := if_pos h

theorem signed?_of_signed {n : Int} (h : Signed n) : signed? n = some n := if_pos h

theorem Unsigned.of_le {m n : Nat} (h : Unsigned n) (hle : m ≤ n) : Unsigned m :=
  ⟨by omega, by omega⟩

end Word64

namespace Bounded

/-! ## The odometer -/

/-- The integer with the given index. -/
def intAt? (i : Nat) : Option Int := do
  let m ← Word64.signed? ((i + 1) / 2 : Nat)
  if i % 2 = 1 then return m
  Word64.signed? (-m)

/-- The value of a variable with the given index. -/
def valueAt? (v : Var) (i : Nat) : Option Value :=
  if v.ty.isBool then some (.bool (i = 1)) else (intAt? i).map .int

/-- The assignment that the digits stand for. -/
def assignment? : List Var → List Nat → Option Assignment
  | v :: vs, d :: ds => do return (v, ← valueAt? v d) :: (← assignment? vs ds)
  | _, _ => some []

/-- One turn of digits with the given sizes, and whether it carried past the last digit. -/
def advance? : (sizes digits : List Nat) → Option (Bool × List Nat)
  | n :: ns, d :: ds => do
    let raised ← Word64.unsigned? (d + 1)
    if raised < n then return (false, raised :: ds)
    let (carry, ds') ← advance? ns ds
    return (carry, 0 :: ds')
  | _, ds => some (true, ds)

/-- The number of assignments. -/
def turns? (sizes : List Nat) : Option Nat := sizes.foldlM (fun n d => Word64.unsigned? (n * d)) 1

variable (b : Bounded)

/-- The turns from the given digits on: the assignments that were tried, and how the search
ended. -/
def run? (e : Expr) (vs : List Var) (sizes : List Nat) :
    (turns : Nat) → (digits : List Nat) → Option (List Assignment × Search)
  | 0, _ => none
  | turns + 1, ds => do
    let a ← assignment? vs ds
    match b.stopAt e a with
    | some r => return ([a], r)
    | none =>
      let (carry, ds') ← advance? sizes ds
      if carry then return ([a], .exhausted)
      let (tried, r) ← run? e vs sizes turns ds'
      return (a :: tried, r)

/-- The search with one digit for each variable. There is no result if a number does not fit into
its word, and none if the carry past the last digit does not come after as many turns as there are
assignments. -/
def odometer? (e : Expr) : Option (List Assignment × Search) := do
  let ints ← domainSize? b.bound
  let sizes := e.free.map fun v => if v.ty.isBool then 2 else ints
  let turns ← turns? sizes
  -- the least integer of the evaluator
  let _ ← Word64.signed? (-b.bound)
  b.run? e e.free sizes turns (e.free.map fun _ => 0)

section Run
variable {b} {e : Expr} {vs : List Var} {sizes ds : List Nat} {turns : Nat} {a : Assignment}

theorem run?_of_stop (ha : assignment? vs ds = some a) {r : Search}
    (hstop : b.stopAt e a = some r) : b.run? e vs sizes (turns + 1) ds = some ([a], r) := by
  simp only [run?, ha, hstop, Option.bind_eq_bind, Option.bind_some]
  rfl

theorem run?_of_end (ha : assignment? vs ds = some a) (hstop : b.stopAt e a = none)
    {ds' : List Nat} (hturn : advance? sizes ds = some (true, ds')) :
    b.run? e vs sizes (turns + 1) ds = some ([a], .exhausted) := by
  simp only [run?, ha, hstop, hturn, Option.bind_eq_bind, Option.bind_some]
  rfl

theorem run?_of_next (ha : assignment? vs ds = some a) (hstop : b.stopAt e a = none)
    {ds' : List Nat} (hturn : advance? sizes ds = some (false, ds')) {tried : List Assignment}
    {r : Search} (hrun : b.run? e vs sizes turns ds' = some (tried, r)) :
    b.run? e vs sizes (turns + 1) ds = some (a :: tried, r) := by
  simp only [run?, ha, hstop, hturn, hrun, Option.bind_eq_bind, Option.bind_some]
  rfl

end Run

theorem advance?_cons_of_lt {n d : Nat} (ns ds : List Nat) (hd : d + 1 < n)
    (hn : Word64.Unsigned n) : advance? (n :: ns) (d :: ds) = some (false, (d + 1) :: ds) := by
  rw [advance?, Word64.unsigned?_of_unsigned (hn.of_le (Nat.le_of_lt hd))]
  exact if_pos hd

theorem advance?_cons_of_eq {n d : Nat} {ns ds : List Nat} {r : Bool × List Nat} (hd : d + 1 = n)
    (hn : Word64.Unsigned n) (h : advance? ns ds = some r) :
    advance? (n :: ns) (d :: ds) = some (r.1, 0 :: r.2) := by
  rw [advance?, Word64.unsigned?_of_unsigned (hn.of_le (Nat.le_of_eq hd)), h]
  exact if_neg (by omega)

/-! ## Digits -/

/-- The digits of an index; that of the first variable is the lowest. -/
def digits : List Var → Nat → List Nat
  | [], _ => []
  | v :: vs, k => k % b.size v :: digits vs (k / b.size v)

theorem size_pos (v : Var) : 0 < b.size v := by
  unfold size
  split <;> omega

theorem space_pos (vs : List Var) : 0 < b.space vs := by
  induction vs with
  | nil => exact Nat.one_pos
  | cons v vs ih => exact Nat.mul_pos (b.size_pos v) ih

/-- The number of assignments to the variables up to some place is not above that for all
variables. -/
theorem foldlM_sizes {vs : List Var} {n : Nat} (h : Word64.Unsigned (n * b.space vs : Nat)) :
    (vs.map b.size).foldlM (fun n d => Word64.unsigned? (n * d)) n = some (n * b.space vs) := by
  induction vs generalizing n with
  | nil =>
    rw [space, Nat.mul_one]
    rfl
  | cons v vs ih =>
    rw [space, ← Nat.mul_assoc] at h ⊢
    have hle : n * b.size v ≤ n * b.size v * b.space vs :=
      Nat.le_mul_of_pos_right _ (b.space_pos vs)
    rw [List.map_cons, List.foldlM_cons, Word64.unsigned?_of_unsigned (h.of_le hle)]
    exact ih h

theorem turns?_eq {vs : List Var} (h : Word64.Unsigned (b.space vs)) :
    turns? (vs.map b.size) = some (b.space vs) := by
  rw [turns?, b.foldlM_sizes (by rwa [Nat.one_mul]), Nat.one_mul]

theorem digits_zero (vs : List Var) : b.digits vs 0 = vs.map fun _ => 0 := by
  induction vs with
  | nil => rfl
  | cons v vs ih => rw [digits, Nat.zero_mod, Nat.zero_div, ih, List.map_cons]

theorem digits_cons_add {v : Var} (vs : List Var) {r : Nat} (hr : r < b.size v) (q : Nat) :
    b.digits (v :: vs) (r + b.size v * q) = r :: b.digits vs q := by
  obtain ⟨hdiv, hmod⟩ := (Nat.div_mod_unique (b.size_pos v)).2 ⟨rfl, hr⟩
  rw [digits, hdiv, hmod]

section Words
variable {b} (hb : Word64.Signed b.bound)
include hb

theorem unsigned_size (v : Var) : Word64.Unsigned (b.size v) := by
  unfold size
  split <;> omega

theorem domainSize?_eq : domainSize? b.bound = some (2 * b.bound + 1) := by
  unfold domainSize?
  rw [Int.natAbs_natCast, if_pos ⟨by omega, by omega⟩]

theorem intAt?_eq {i : Nat} (hi : i < 2 * b.bound + 1) : intAt? i = some (intAt i) := by
  have hm : ((i + 1) / 2 : Nat) ≤ b.bound := by omega
  unfold intAt? intAt
  rw [Word64.signed?_of_signed ⟨by omega, by omega⟩]
  show (if i % 2 = 1 then some _ else Word64.signed? _) = _
  split
  · rfl
  · rw [Word64.signed?_of_signed ⟨by omega, by omega⟩]
    congr 2
    omega

theorem valueAt?_eq {v : Var} {i : Nat} (hi : i < b.size v) :
    valueAt? v i = some (valueAt v i) := by
  unfold valueAt? valueAt
  unfold size at hi
  split
  · rfl
  · next hbool =>
    rw [if_neg hbool] at hi
    rw [intAt?_eq hb hi, Option.map_some]

theorem assignment?_digits (vs : List Var) (k : Nat) :
    assignment? vs (b.digits vs k) = some (b.assignmentAt vs k) := by
  induction vs generalizing k with
  | nil => rfl
  | cons v vs ih =>
    rw [digits, assignment?, valueAt?_eq hb (Nat.mod_lt k (b.size_pos v)), ih]
    rfl

/-- One turn leads to the digits of the next index, and carries past the last digit exactly if there
is no next index. -/
theorem advance?_digits {vs : List Var} {k : Nat} (hk : k < b.space vs) :
    advance? (vs.map b.size) (b.digits vs k) =
      some (decide (k + 1 = b.space vs), b.digits vs (k + 1)) := by
  induction vs generalizing k with
  | nil =>
    obtain rfl : k = 0 := Nat.lt_one_iff.1 hk
    rfl
  | cons v vs ih =>
    obtain ⟨r, q, hr, rfl⟩ : ∃ r q, r < b.size v ∧ k = r + b.size v * q :=
      ⟨k % b.size v, k / b.size v, Nat.mod_lt k (b.size_pos v), (Nat.mod_add_div k _).symm⟩
    have hsize := unsigned_size hb v
    have hspace : b.space (v :: vs) = b.size v * b.space vs := rfl
    have hq : q < b.space vs := Nat.lt_of_mul_lt_mul_left (a := b.size v) (by omega)
    rw [List.map_cons, b.digits_cons_add vs hr, hspace]
    by_cases hlast : r + 1 < b.size v
    · -- no carry: the quotient stays
      have hnext : r + b.size v * q + 1 = (r + 1) + b.size v * q := by omega
      have hend : ¬ (r + 1) + b.size v * q = b.size v * b.space vs := by
        have hle : b.size v * (q + 1) ≤ b.size v * b.space vs := Nat.mul_le_mul_left _ hq
        rw [Nat.mul_succ] at hle
        omega
      rw [advance?_cons_of_lt _ _ hlast hsize, hnext, b.digits_cons_add vs hlast,
        decide_eq_false hend]
    · -- a carry: the quotient goes up by one
      have hnext : r + b.size v * q + 1 = 0 + b.size v * (q + 1) := by
        rw [Nat.mul_succ]
        omega
      have hend : (0 + b.size v * (q + 1) = b.size v * b.space vs) = (q + 1 = b.space vs) := by
        rw [Nat.zero_add, Nat.mul_right_inj (Nat.ne_of_gt (b.size_pos v))]
      rw [advance?_cons_of_eq (by omega) hsize (ih hq), hnext, b.digits_cons_add vs (b.size_pos v)]
      simp only [hend]

/-- All turns from the digits of `k` on: they try the assignments from `k` on, and end as the scan
of these does. -/
theorem run?_digits {vs : List Var} {e : Expr} {turns k : Nat} (hlt : k < b.space vs)
    (hk : k + turns = b.space vs) :
    ∃ tried, tried <+: (List.range' k turns).map (b.assignmentAt vs) ∧
      b.run? e vs (vs.map b.size) turns (b.digits vs k) =
        some (tried, b.firstStop e ((List.range' k turns).map (b.assignmentAt vs))) := by
  induction turns generalizing k with
  | zero => omega
  | succ turns ih =>
    have hat := assignment?_digits hb vs k
    have hturn := advance?_digits hb hlt
    rw [List.range'_succ, List.map_cons]
    cases hstop : b.stopAt e (b.assignmentAt vs k) with
    | some r =>
      refine ⟨[b.assignmentAt vs k], List.prefix_append [_] _, ?_⟩
      rw [b.run?_of_stop hat hstop, b.firstStop_cons_of_some hstop]
    | none =>
      rw [b.firstStop_cons_of_none hstop]
      by_cases hend : k + 1 = b.space vs
      · obtain rfl : turns = 0 := by omega
        rw [decide_eq_true hend] at hturn
        exact ⟨[b.assignmentAt vs k], List.prefix_refl _, b.run?_of_end hat hstop hturn⟩
      · rw [decide_eq_false hend] at hturn
        obtain ⟨tried, htried, hrun⟩ := ih (k := k + 1) (by omega) (by omega)
        exact ⟨b.assignmentAt vs k :: tried, List.cons_prefix_cons.2 ⟨rfl, htried⟩,
          b.run?_of_next hat hstop hturn hrun⟩

/-- The odometer tries the assignments of the product one after another, ends as their scan does,
and stays within its words. -/
theorem exists_odometer? {e : Expr} (hspace : Word64.Unsigned (b.space e.free)) :
    ∃ tried, tried <+: b.product e.free ∧
      b.odometer? e = some (tried, b.firstStop e (b.product e.free)) := by
  obtain ⟨tried, htried, hrun⟩ := run?_digits hb (e := e) (b.space_pos e.free) (Nat.zero_add _)
  rw [← List.range_eq_range', ← product_eq_map] at htried hrun
  refine ⟨tried, htried, ?_⟩
  rw [digits_zero] at hrun
  rw [odometer?, domainSize?_eq hb, ← hrun]
  show (turns? (e.free.map b.size) >>= _) = _
  rw [b.turns?_eq hspace]
  show (Word64.signed? (-b.bound) >>= _) = _
  rw [Word64.signed?_of_signed ⟨by omega, by omega⟩]
  rfl

end Words

/-! ## The search -/

theorem foldl_define (ps : List Predicate) (b : Bounded) :
    (ps.foldl define b).bound = b.bound ∧ (ps.foldl define b).cap = b.cap := by
  induction ps generalizing b with
  | nil => exact ⟨rfl, rfl⟩
  | cons p ps ih => exact ih (b.define p)

/-- **Bounded search is a scan of the product**, for a search that was given any bound, any cap of
64 bits and any definitions, and a formula without array variables and quantifiers that has no more
assignments than the cap. The variables are in the order of their names and sorts; each integer from
`-bound` to `bound` is a value of every integer variable exactly once. The search ends at the first
assignment that does not make the formula true, and it is exhausted exactly if all of them do. The
odometer tries nothing twice and comes to the same end, and none of its numbers needs more than 64
bits. -/
theorem search_product (bound : Int) {cap : Nat} (hcap : Word64.Unsigned cap) (ps : List Predicate)
    {b : Bounded} (hb : b = ps.foldl define (ofBound bound cap)) {e : Expr}
    (harray : ∀ v ∈ e.free, v.ty.isArray = false) (hplain : e.hasQuantifier = false)
    (happlied : ∀ p, b.predicates.Applies e p → p.body.hasQuantifier = false)
    (hspace : (b.product e.free).length ≤ cap) :
    Var.Ascending e.free ∧
    (∀ v ∈ e.free, v.ty = .int → (b.values v).Nodup ∧
      ∀ x, x ∈ b.values v ↔ ∃ n : Int, x = .int n ∧ -(b.bound : Int) ≤ n ∧ n ≤ b.bound) ∧
    b.search e = b.firstStop e (b.product e.free) ∧
    (b.search e = .exhausted ↔ ∀ a : Assignment, a.map Prod.fst = e.free →
      (∀ p ∈ a, p.2 ∈ b.values p.1) → b.evaluator.holds e a = .ok true) ∧
    ∃ tried, tried <+: b.product e.free ∧ tried.Nodup ∧
      b.odometer? e = some (tried, b.search e) := by
  obtain ⟨hbound, hcap'⟩ := foldl_define ps (ofBound bound cap)
  rw [← hb] at hbound hcap'
  have hword : Word64.Signed b.bound := by
    rw [hbound]
    show Word64.Signed (min bound.natAbs 9223372036854775807 : Nat)
    omega
  rw [length_product] at hspace
  have hsearch :=
    b.search_eq_firstStop harray (quantified_eq_false hplain happlied) (hcap' ▸ hspace)
  refine ⟨e.free_ascending, fun v _ hv => ⟨b.nodup_values v, fun x => ?_⟩, hsearch, ?_, ?_⟩
  · simp [values, hv, Ty.isBool, mem_integers, eq_comm, and_comm]
  · rw [hsearch, firstStop_eq_exhausted]
    simp only [mem_product, and_imp]
  · obtain ⟨tried, htried, hrun⟩ := exists_odometer? hword (hcap.of_le hspace)
    exact ⟨tried, htried, htried.sublist.nodup (b.nodup_product e.free), hsearch ▸ hrun⟩

namespace Extreme

def x : Var := ⟨"x", .int⟩

def small : Predicate := ⟨"small", [⟨"n", .int⟩], .binary .lt (.var ⟨"n", .int⟩) (.int 2)⟩

/-- The least bound that a word can have, and the greatest cap. -/
def backend : Bounded := [small].foldl define (ofBound (-9223372036854775808) 18446744073709551615)

def formula : Expr := .apply "small" [.var x]

theorem applies {p : Predicate} (h : backend.predicates.Applies formula p) : p = small := by
  have hfind : ∃ n, backend.predicates.find? n = some p := by
    cases h with
    | direct _ hp => exact ⟨_, hp⟩
    | through _ _ hp => exact ⟨_, hp⟩
  obtain ⟨n, hp⟩ := hfind
  exact List.mem_singleton.1 (List.mem_of_find?_eq_some hp)

/-- There are as many assignments as the cap allows; the fourth of them, after 0, 1 and -1, refutes
the formula. -/
theorem search_product_extreme :
    (backend.product formula.free).length = 18446744073709551615 ∧
    backend.search formula = .falsified ⟨[("x", "2")]⟩ ∧
    ∃ tried, tried <+: backend.product formula.free ∧ tried.Nodup ∧
      backend.odometer? formula = some (tried, .falsified ⟨[("x", "2")]⟩) := by
  have hlength : (backend.product formula.free).length = 18446744073709551615 := by
    rw [length_product]
    rfl
  have hsearch : backend.search formula = .falsified ⟨[("x", "2")]⟩ := rfl
  have harray : ∀ v ∈ formula.free, v.ty.isArray = false := by decide
  have happlied : ∀ p, backend.predicates.Applies formula p → p.body.hasQuantifier = false :=
    fun p hp => by rw [applies hp]; rfl
  obtain ⟨-, -, -, -, hodometer⟩ := search_product (-9223372036854775808) (by decide) [small]
    (b := backend) rfl harray rfl happlied (Nat.le_of_eq hlength)
  exact ⟨hlength, hsearch, hsearch ▸ hodometer⟩

end Extreme

end Bounded

end Cutpoint
