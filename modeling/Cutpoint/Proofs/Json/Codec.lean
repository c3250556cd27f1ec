import Cutpoint.Json.Decode
import Cutpoint.Proofs.Json.Reader

/-!
# Writing and reading JSON values

* `Json.depth_arr_le`, `Json.depth_object_le`, `Json.depth_variant_le`: arrays and objects are one
  level deeper than what is in them;
* `Json.Codec`: a reader undoes a writer within the levels that the written value needs, and gives
  no value that needs more;
* `Json.Codec.decode_items`, `Json.Codec.bound_items`: the same for lists, also where the reader
  takes a list that was left out for an empty one.
-/

set_option autoImplicit false

namespace Cutpoint.Json

/-! ## Depth -/

/-- The values of members are at most `n` levels deep. -/
def Shallow (n : Nat) : List (String × Json) → Prop
  | [] => True
  | (_, j) :: ms => j.depth ≤ n ∧ Shallow n ms

theorem depths_le {js : List Json} {n : Nat} : depths js ≤ n ↔ ∀ j ∈ js, j.depth ≤ n := by
  induction js with
  | nil => exact ⟨fun _ j hj => absurd hj List.not_mem_nil, fun _ => Nat.zero_le n⟩
  | cons j js ih =>
    show max j.depth (depths js) ≤ n ↔ _
    rw [Nat.max_le, ih, List.forall_mem_cons]

theorem memberDepths_le {ms : List (String × Json)} {n : Nat} :
    memberDepths (ms.map fun m => (some m.1, m.2)) ≤ n ↔ Shallow n ms := by
  induction ms with
  | nil => exact ⟨fun _ => trivial, fun _ => Nat.zero_le n⟩
  | cons m ms ih =>
    show max m.2.depth (memberDepths (ms.map fun m => (some m.1, m.2))) ≤ n ↔ m.2.depth ≤ n ∧
      Shallow n ms
    rw [Nat.max_le, ih]

theorem depth_arr_le {js : List Json} {n : Nat} :
    (arr js).depth ≤ n ↔ ∃ k, n = k + 1 ∧ ∀ j ∈ js, j.depth ≤ k := by
  show depths js + 1 ≤ n ↔ _
  constructor
  · intro h
    exact ⟨n - 1, by omega, depths_le.1 (by omega)⟩
  · rintro ⟨k, rfl, h⟩
    exact Nat.succ_le_succ (depths_le.2 h)

theorem depth_object_le {ms : List (String × Json)} {n : Nat} :
    (object ms).depth ≤ n ↔ ∃ k, n = k + 1 ∧ Shallow k ms := by
  show memberDepths (ms.map fun m => (some m.1, m.2)) + 1 ≤ n ↔ _
  constructor
  · intro h
    exact ⟨n - 1, by omega, memberDepths_le.1 (by omega)⟩
  · rintro ⟨k, rfl, h⟩
    exact Nat.succ_le_succ (memberDepths_le.2 h)

/-- A variant with the fields of a record is two levels deeper than these. -/
theorem depth_variant_le {tag : String} {ms : List (String × Json)} {n : Nat} :
    (object [(tag, object ms)]).depth ≤ n ↔ ∃ k, n = k + 2 ∧ Shallow k ms := by
  rw [depth_object_le]
  constructor
  · rintro ⟨m, rfl, hm, -⟩
    obtain ⟨k, rfl, h⟩ := depth_object_le.1 hm
    exact ⟨k, rfl, h⟩
  · rintro ⟨k, rfl, h⟩
    exact ⟨k + 1, rfl, depth_object_le.2 ⟨k, rfl, h⟩, trivial⟩

/-- With one level more on both sides. -/
theorem depth_object_le_max {ms : List (String × Json)} {n k : Nat} (h : Shallow (max n k) ms) :
    (object ms).depth ≤ max (n + 1) (k + 1) :=
  depth_object_le.2 ⟨max n k, by omega, h⟩

theorem depth_variant_le_max {tag : String} {ms : List (String × Json)} {n k : Nat}
    (h : Shallow (max n k) ms) : (object [(tag, object ms)]).depth ≤ max (n + 2) (k + 2) :=
  depth_variant_le.2 ⟨max n k, by omega, h⟩

theorem depth_arr_le_max {js : List Json} {n k : Nat} (h : ∀ j ∈ js, j.depth ≤ max n k) :
    (arr js).depth ≤ max (n + 1) (k + 1) :=
  depth_arr_le.2 ⟨max n k, by omega, h⟩

/-! ## Numbers and records -/

theorem signed_of_signed? {j : Json} {n : Int} (h : signed? j = some n) : Word64.Signed n := by
  unfold signed? at h
  split at h
  · split at h
    · next hn =>
      cases h
      exact hn
    · cases h
  · cases h

theorem unsigned_of_unsigned64? {j : Json} {n : Nat} (h : unsigned64? j = some n) :
    Word64.Unsigned n := by
  unfold unsigned64? at h
  split at h
  · split at h
    · next m hm =>
      cases h
      rwa [Int.toNat_of_nonneg hm.1]
    · cases h
  · cases h

theorem unsigned64?_int {n : Nat} (h : Word64.Unsigned n) : unsigned64? (int n) = some n := by
  rw [unsigned64?, if_pos h, Int.toNat_natCast]

theorem record?_eq_some {α : Type} {names : List String}
    {read : Nat → List (Option Json) → Option α} {levels : Nat} {j : Json} {x : α}
    (h : record? names levels read j = some x) :
    ∃ inner fs, levels = inner + 1 ∧ read inner fs = some x := by
  cases levels with
  | zero => cases h
  | succ inner =>
    obtain ⟨fs, -, hread⟩ := Option.bind_eq_some_iff.1 h
    exact ⟨inner, fs, rfl, hread⟩

/-! ## Codecs -/

theorem mapM_map {α : Type} {toJson : α → Json} {item : Json → Option α} {xs : List α}
    (h : ∀ x ∈ xs, item (toJson x) = some x) : (xs.map toJson).mapM item = some xs := by
  induction xs with
  | nil => rfl
  | cons x xs ih =>
    rw [List.forall_mem_cons] at h
    rw [List.map_cons, List.mapM_cons, h.1, ih h.2]
    rfl

theorem mem_of_mapM {α : Type} {item : Json → Option α} {js : List Json} {xs : List α}
    (h : js.mapM item = some xs) : ∀ x ∈ xs, ∃ j, item j = some x := by
  induction js generalizing xs with
  | nil =>
    cases h
    simp
  | cons j js ih =>
    rw [List.mapM_cons] at h
    obtain ⟨x, hx, h⟩ := Option.bind_eq_some_iff.1 h
    obtain ⟨rest, hrest, h⟩ := Option.bind_eq_some_iff.1 h
    cases h
    exact List.forall_mem_cons.2 ⟨⟨j, hx⟩, ih hrest⟩

theorem mem_of_list? {α : Type} {item : Json → Option α} {j : Json} {xs : List α}
    (h : list? item j = some xs) : ∀ x ∈ xs, ∃ i, item i = some x := by
  unfold list? at h
  split at h
  · exact mem_of_mapM h
  · cases h

/-- How values are written and read. A value whose numbers are in range is read from what was
written, if the levels suffice. A value that is read is in range, and needs no more levels than
there were, or than `least`: what was left out may be deeper when it is written. -/
structure Codec {α : Type} (toJson : α → Json) (ofJson? : Nat → Json → Option α)
    (InRange : α → Prop) (least : Nat) : Prop where
  written : ∀ x, (toJson x).Written
  decode : ∀ levels x, InRange x → (toJson x).depth ≤ levels → ofJson? levels (toJson x) = some x
  bound : ∀ levels j x, ofJson? levels j = some x → InRange x ∧ (toJson x).depth ≤ max levels least

namespace Codec
variable {α : Type} {toJson : α → Json} {ofJson? : Nat → Json → Option α}
  {InRange : α → Prop} {least : Nat} (hcodec : Codec toJson ofJson? InRange least)
include hcodec

theorem mono {most : Nat} (h : least ≤ most) : Codec toJson ofJson? InRange most :=
  ⟨hcodec.written, hcodec.decode, fun levels j x hread => (hcodec.bound levels j x hread).imp_right
    fun hx => by omega⟩

theorem written_items (xs : List α) : (arr (xs.map toJson)).Written :=
  .arr fun j hj => by
    obtain ⟨x, -, rfl⟩ := List.mem_map.1 hj
    exact hcodec.written x

theorem decode_items {levels : Nat} {xs : List α} (hrange : ∀ x ∈ xs, InRange x)
    (hdepth : (arr (xs.map toJson)).depth ≤ levels) :
    items? levels ofJson? (arr (xs.map toJson)) = some xs := by
  obtain ⟨k, rfl, hk⟩ := depth_arr_le.1 hdepth
  exact mapM_map fun x hx => hcodec.decode k x (hrange x hx) (hk _ (List.mem_map_of_mem hx))

theorem bound_items {levels : Nat} {j : Json} {xs : List α}
    (h : items? levels ofJson? j = some xs) :
    0 < levels ∧ (∀ x ∈ xs, InRange x) ∧ (arr (xs.map toJson)).depth ≤ max levels (least + 1) := by
  cases levels with
  | zero => cases h
  | succ k =>
    have hread : ∀ x ∈ xs, InRange x ∧ (toJson x).depth ≤ max k least := by
      intro x hx
      obtain ⟨i, hi⟩ := mem_of_list? h x hx
      exact hcodec.bound k i x hi
    refine ⟨Nat.succ_pos k, fun x hx => (hread x hx).1, depth_arr_le_max fun j hj => ?_⟩
    obtain ⟨x, hx, rfl⟩ := List.mem_map.1 hj
    exact (hread x hx).2

/-- A list that was left out is empty. -/
theorem bound_itemsOrNone {levels : Nat} {j : Option Json} {xs : List α}
    (h : itemsOrNone? levels ofJson? j = some xs) :
    (∀ x ∈ xs, InRange x) ∧ (arr (xs.map toJson)).depth ≤ max levels (least + 1) := by
  cases j with
  | none =>
    cases h
    exact ⟨by simp, depth_arr_le.2 ⟨max levels (least + 1) - 1, by omega, by simp⟩⟩
  | some j => exact (hcodec.bound_items h).2

end Codec

end Cutpoint.Json
