import Mathlib.Data.List.TakeWhile
import Cutpoint.Proofs.Condition.Naming

/-!
# The supply of names

A new name is searched for by trying one number after the other, with nothing that would stop the
search but a free name.

* `UpToDollar name st`: the text `st` is the part of a name before its first dollar sign;
* `Seeks st avoid k n r`: the search from the number `k` on tries `n` names and returns the number
  `r`;
* `IsLeastFree.seeks_iff`: the search from zero on returns the least free number, and has tried that
  one and the numbers below;
* `Naming.freshAll_each`: a list of variables is named one by one, and the names given out before
  are avoided like those in use;
* `fresh_least_number`: the supply never runs out, and never gives out a name twice.
-/

set_option autoImplicit false

namespace Cutpoint

/-! ## Stems -/

/-- The part of a name before its first dollar sign, or all of it if it has none. -/
def UpToDollar (name st : String) : Prop :=
  '$' ∉ st.toList ∧ (name = st ∨ ∃ rest, name = st ++ "$" ++ rest)

theorem stem_toList (name : String) : (stem name).toList = name.toList.takeWhile (· != '$') :=
  String.toList_ofList

theorem upToDollar_stem (name : String) : UpToDollar name (stem name) := by
  have hsplit := name.toList.takeWhile_append_dropWhile (p := (· != '$'))
  rw [← stem_toList] at hsplit
  refine ⟨fun hmem => ?_, ?_⟩
  · rw [stem_toList] at hmem
    simpa using List.mem_takeWhile_imp hmem
  · rcases hrest : name.toList.dropWhile (· != '$') with _ | ⟨c, rest⟩
    · rw [hrest, List.append_nil] at hsplit
      exact Or.inl (String.toList_inj.1 hsplit.symm)
    · have hc : c = '$' := by
        have hhead := List.head?_dropWhile_not (· != '$') name.toList
        rw [hrest] at hhead
        simpa using hhead
      rw [hrest, hc] at hsplit
      refine Or.inr ⟨String.ofList rest, String.toList_inj.1 ?_⟩
      rw [← hsplit]
      simp

/-- A name has one such part. -/
theorem upToDollar_iff {name st : String} : UpToDollar name st ↔ st = stem name := by
  refine ⟨fun ⟨hno, h⟩ => String.toList_inj.1 ?_, fun h => h ▸ upToDollar_stem name⟩
  have hall : ∀ c ∈ st.toList, (c != '$') = true := fun c hc => bne_iff_ne.2 fun he => hno (he ▸ hc)
  rw [stem_toList]
  rcases h with rfl | ⟨rest, rfl⟩
  · exact (List.takeWhile_eq_self_iff.2 hall).symm
  · rw [String.toList_append, String.toList_append, List.append_assoc,
      List.takeWhile_append_of_pos hall]
    simp

/-! ## The search -/

/-- The search from a number on, with the names it tries and the number it returns. -/
inductive Seeks (st : String) (avoid : List String) : (k n r : Nat) → Prop
  | free {k : Nat} (h : numbered st k ∉ avoid) : Seeks st avoid k 1 k
  | taken {k n r : Nat} (h : numbered st k ∈ avoid) (rest : Seeks st avoid (k + 1) n r) :
      Seeks st avoid k (n + 1) r

section
variable {st : String} {avoid : List String}

theorem Seeks.unique {k n r n' r' : Nat} (h : Seeks st avoid k n r) (h' : Seeks st avoid k n' r') :
    n = n' ∧ r = r' := by
  induction h generalizing n' with
  | free hfree =>
    cases h' with
    | free => exact ⟨rfl, rfl⟩
    | taken htaken => exact absurd htaken hfree
  | taken htaken _ ih =>
    cases h' with
    | free hfree => exact absurd htaken hfree
    | taken _ rest' =>
      obtain ⟨hn, hr⟩ := ih rest'
      exact ⟨congrArg (· + 1) hn, hr⟩

/-- From `d` numbers before the least free one, the search gets there. -/
theorem IsLeastFree.seeks {k d : Nat} (h : IsLeastFree st avoid k) (hd : d ≤ k) :
    Seeks st avoid (k - d) (d + 1) k := by
  induction d with
  | zero => exact .free h.free
  | succ d ih =>
    refine .taken (h.taken _ (by omega)) ?_
    rw [show k - (d + 1) + 1 = k - d by omega]
    exact ih (by omega)

theorem IsLeastFree.seeks_iff {k n r : Nat} (h : IsLeastFree st avoid k) :
    Seeks st avoid 0 n r ↔ n = k + 1 ∧ r = k := by
  have hrun : Seeks st avoid 0 (k + 1) k := by
    have := h.seeks (Nat.le_refl k)
    rwa [Nat.sub_self] at this
  refine ⟨fun h' => h'.unique hrun, ?_⟩
  rintro ⟨rfl, rfl⟩
  exact hrun

end

/-! ## One name after the other -/

namespace Naming

/-- The names given out are the names added to those in use. Each variable is named with those
before it in use. -/
theorem freshAll_each (vs : List Var) (N : Names) :
    ∃ ws, Gives (freshAll vs) N ws ((Var.names ws).reverse ++ N) ∧ ws.length = vs.length ∧
      ∀ (i : Nat) (v : Var), vs[i]? = some v →
        ws[i]? = some (v.fresh ((Var.names (ws.take i)).reverse ++ N)) := by
  induction vs generalizing N with
  | nil => exact ⟨[], rfl, rfl, by simp⟩
  | cons v vs ih =>
    obtain ⟨ws, hws, hlen, heach⟩ := ih ((v.fresh N).name :: N)
    have hadded : (Var.names (v.fresh N :: ws)).reverse ++ N = (Var.names ws).reverse ++
        (v.fresh N).name :: N := by
      simp [Var.names]
    refine ⟨v.fresh N :: ws, ?_, by simp [hlen], fun i u hu => ?_⟩
    · rw [hadded]
      exact (gives_fresh v N).bind (hws.bind rfl)
    · cases i with
      | zero =>
        cases hu
        rfl
      | succ i =>
        rw [List.getElem?_cons_succ, heach i u hu]
        simp [Var.names]

end Naming

/-- **The supply of names**: whatever names are to be avoided, and also for a variable whose name
has a number or begins with a dollar sign, the search for a new name ends after at most one try more
than there are names to avoid. It gives a variable of the same sort that is named after the part
before the dollar sign, with the least number that is free. So variables that are named one after
the other, each with the names given out before in use, get new and different names. -/
theorem fresh_least_number (v : Var) (avoid : Names) :
    (∀ st, UpToDollar v.name st ↔ st = stem v.name) ∧
    (∃ k, v.fresh avoid = ⟨stem v.name ++ "$" ++ natText k, v.ty⟩ ∧
      IsLeastFree (stem v.name) avoid k ∧
      (∀ n r, Seeks (stem v.name) avoid 0 n r ↔ n = k + 1 ∧ r = k) ∧
      k + 1 ≤ avoid.toFinset.card + 1) ∧
    ∀ vs : List Var, ∃ ws,
      Naming.Gives (Naming.freshAll vs) avoid ws ((Var.names ws).reverse ++ avoid) ∧
      ws.length = vs.length ∧
      (∀ (i : Nat) (u : Var), vs[i]? = some u →
        ws[i]? = some (u.fresh ((Var.names (ws.take i)).reverse ++ avoid))) ∧
      (Var.names ws).Nodup ∧ ∀ x ∈ Var.names ws, x ∉ avoid := by
  refine ⟨fun st => upToDollar_iff, ?_, fun vs => ?_⟩
  · have hleast := isLeastFree_leastFree (stem v.name) avoid
    exact ⟨_, rfl, hleast, fun n r => hleast.seeks_iff, Nat.succ_le_succ hleast.le_card⟩
  · obtain ⟨ws, hws, hlen, heach⟩ := Naming.freshAll_each vs avoid
    obtain ⟨_, _, hgives, hnew, -⟩ := Naming.freshAll_gives vs avoid
    obtain ⟨rfl, rfl⟩ := hws.unique hgives
    exact ⟨ws, hws, hlen, heach, hnew.nodup, hnew.not_mem⟩

example : Naming.Gives (Naming.freshAll [⟨"x", .int⟩, ⟨"x$7", .int⟩, ⟨"$x", .bool⟩]) ["x$1"]
    [⟨"x$0", .int⟩, ⟨"x$2", .int⟩, ⟨"$0", .bool⟩] ["$0", "x$2", "x$0", "x$1"] := rfl

end Cutpoint
