import Mathlib.Data.Finset.Card
import Cutpoint.Expr.Subst
import Cutpoint.Proofs.Expr.Free

/-!
# Fresh names are fresh

`Var.fresh` tries as many numbers as there are names to avoid, and one more number is left when all
of these are taken. Numbered names of one stem differ, so that this last one cannot be taken too:
the number found is the least free one (`isLeastFree_leastFree`), and its name is new
(`fresh_name_not_mem`).
-/

set_option autoImplicit false

namespace Cutpoint

theorem natText_injective {m n : Nat} (h : natText m = natText n) : m = n := by
  have hd : Nat.toDigits 10 m = Nat.toDigits 10 n := by
    simpa [natText, Nat.repr] using congrArg String.toList h
  rw [← @Nat.ofDigitChars_toDigits 10 m (by decide) (by decide), hd,
    Nat.ofDigitChars_toDigits (by decide) (by decide)]

theorem numbered_injective {st : String} {j k : Nat}
    (h : numbered st j = numbered st k) : j = k := by
  have ht := congrArg String.toList h
  simp only [numbered, String.toList_append] at ht
  exact natText_injective (String.toList_inj.1 (List.append_cancel_left ht))

theorem dollar_mem_numbered (st : String) (k : Nat) : '$' ∈ (numbered st k).toList := by
  simp [numbered]

/-! ## The least number -/

/-- The least number whose name is not avoided. -/
structure IsLeastFree (st : String) (avoid : List String) (k : Nat) : Prop where
  free : numbered st k ∉ avoid
  taken : ∀ j < k, numbered st j ∈ avoid

/-- Numbered names of one stem differ, so that no more of them are taken than there are names to
avoid. -/
theorem le_card_of_taken {st : String} {avoid : List String} {n : Nat}
    (h : ∀ j < n, numbered st j ∈ avoid) : n ≤ avoid.toFinset.card := by
  rw [← Finset.card_range n]
  refine Finset.card_le_card_of_injOn (numbered st) (fun j hj => ?_) fun _ _ _ _ =>
    numbered_injective
  exact List.mem_toFinset.2 (h j (Finset.mem_range.1 hj))

theorem IsLeastFree.le_card {st : String} {avoid : List String} {k : Nat}
    (h : IsLeastFree st avoid k) : k ≤ avoid.toFinset.card :=
  le_card_of_taken h.taken

/-- The numbers before the one found are taken. That one is free, unless there were too few to
try. -/
theorem leastFree_spec (st : String) (avoid : List String) (fuel k : Nat) :
    (∀ j, k ≤ j → j < leastFree st avoid fuel k → numbered st j ∈ avoid) ∧
      (numbered st (leastFree st avoid fuel k) ∉ avoid ∨ leastFree st avoid fuel k = k + fuel) := by
  induction fuel generalizing k with
  | zero => exact ⟨fun j h₁ h₂ => absurd h₂ (Nat.not_lt.2 h₁), Or.inr rfl⟩
  | succ fuel ih =>
    rw [leastFree]
    by_cases hk : numbered st k ∈ avoid
    · rw [if_pos (by simpa using hk)]
      obtain ⟨htaken, hend⟩ := ih (k + 1)
      refine ⟨fun j h₁ h₂ => ?_, hend.imp id fun he => by omega⟩
      by_cases hj : j = k
      · exact hj ▸ hk
      · exact htaken j (by omega) h₂
    · rw [if_neg (by simpa using hk)]
      exact ⟨fun j h₁ h₂ => absurd h₂ (Nat.not_lt.2 h₁), Or.inl hk⟩

theorem isLeastFree_leastFree (st : String) (avoid : List String) :
    IsLeastFree st avoid (leastFree st avoid avoid.length 0) := by
  obtain ⟨htaken, hend⟩ := leastFree_spec st avoid avoid.length 0
  refine ⟨fun hmem => ?_, fun j hj => htaken j (Nat.zero_le j) hj⟩
  -- with the last number taken too, more names are taken than there are to avoid
  have hlast := hend.resolve_left (not_not_intro hmem)
  have hall : ∀ j < avoid.length + 1, numbered st j ∈ avoid := by
    intro j hj
    by_cases hne : j = leastFree st avoid avoid.length 0
    · exact hne ▸ hmem
    · exact htaken j (Nat.zero_le j) (by omega)
  have hle := Nat.le_trans (le_card_of_taken hall) avoid.toFinset_card_le
  omega

namespace Var

@[simp] theorem fresh_ty (v : Var) (avoid : List String) : (v.fresh avoid).ty = v.ty := rfl

theorem fresh_name_not_mem (v : Var) (avoid : List String) : (v.fresh avoid).name ∉ avoid :=
  (isLeastFree_leastFree _ _).free

theorem dollar_mem_fresh (v : Var) (avoid : List String) : '$' ∈ (v.fresh avoid).name.toList :=
  dollar_mem_numbered _ _

end Var

end Cutpoint
