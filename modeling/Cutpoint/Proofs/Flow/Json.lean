import Cutpoint.Flow.Json
import Cutpoint.Proofs.Expr.Json

/-!
# Reading what was written: programs

* `Program.InRange`: literals fit into 64 bits with a sign, numbers of locations into 64 bits
  without;
* `Statement.codec` to `Program.codec`: such values are read as they were written. A list that was
  left out is written as an empty one, which needs a level of its own, so that what is read may be
  deeper than the levels; but a program without deep expressions needs only ten;
* `Program.text_round_trip`: a program is read from its text exactly if its numbers are in range and
  the text is not too deep, and every program that is read from some text is of that kind.
-/

set_option autoImplicit false

namespace Cutpoint
open Json
  (Codec depth_object_le depth_variant_le depth_object_le_max depth_variant_le_max record?_eq_some)

/-! ## Statements -/

namespace Statement

def InRange : Statement → Prop
  | assign _ e => e.InRange
  | assignAt _ i e => i.InRange ∧ e.InRange
  | assume e => e.InRange
  | assert e => e.InRange
  | call _ _ _ => True

theorem written_toJson (s : Statement) : s.toJson.Written := by
  cases s with
  | assign v e =>
    exact .object (by simpa using .object (by simp [Var.codec.written, Expr.written_toJson]))
  | assignAt a i e =>
    exact .object (by simpa using .object (by simp [Var.codec.written, Expr.written_toJson]))
  | assume e => exact .object (by simpa using .object (by simp [Expr.written_toJson]))
  | assert e => exact .object (by simpa using .object (by simp [Expr.written_toJson]))
  | call lhs f args =>
    exact .object (by simpa using .object (by simp [Json.Written.text, Var.codec.written_items]))

theorem decode_toJson {levels : Nat} {s : Statement} (hrange : s.InRange)
    (hdepth : s.toJson.depth ≤ levels) : ofJson? levels s.toJson = some s := by
  cases s with
  | assign v e =>
    obtain ⟨k, rfl, hv, he, -⟩ := depth_variant_le.1 hdepth
    show (Var.ofJson? k v.toJson).bind
      (fun v => (Expr.ofJson? k e.toJson).bind fun e => some (assign v e)) = _
    rw [Var.codec.decode k v trivial hv, Expr.decode_toJson hrange he]
    rfl
  | assignAt a i e =>
    obtain ⟨k, rfl, ha, hi, he, -⟩ := depth_variant_le.1 hdepth
    show (Var.ofJson? k a.toJson).bind
      (fun a => (Expr.ofJson? k i.toJson).bind fun i => (Expr.ofJson? k e.toJson).bind fun e =>
      some (assignAt a i e)) = _
    rw [Var.codec.decode k a trivial ha, Expr.decode_toJson hrange.1 hi,
      Expr.decode_toJson hrange.2 he]
    rfl
  | assume e =>
    obtain ⟨k, rfl, he, -⟩ := depth_variant_le.1 hdepth
    show (Expr.ofJson? k e.toJson).map assume = _
    rw [Expr.decode_toJson hrange he]
    rfl
  | assert e =>
    obtain ⟨k, rfl, he, -⟩ := depth_variant_le.1 hdepth
    show (Expr.ofJson? k e.toJson).map assert = _
    rw [Expr.decode_toJson hrange he]
    rfl
  | call lhs f args =>
    obtain ⟨k, rfl, hlhs, -, hargs, -⟩ := depth_variant_le.1 hdepth
    show (Json.items? k Var.ofJson? (.arr (lhs.map Var.toJson))).bind (fun lhs =>
      (Json.items? k Var.ofJson? (.arr (args.map Var.toJson))).bind fun args =>
        some (call lhs f args)) = _
    rw [Var.codec.decode_items (fun _ _ => trivial) hlhs,
      Var.codec.decode_items (fun _ _ => trivial) hargs]
    rfl

theorem bound_ofJson? {levels : Nat} {j : Json} {s : Statement} (h : ofJson? levels j = some s) :
    s.InRange ∧ s.toJson.depth ≤ max levels 3 := by
  -- a call whose lists are left out is read with two levels and written with three, hence the room
  -- that variables and expressions get
  have hvars := Var.codec.mono (Nat.zero_le 1)
  have hexprs := Expr.codec.mono (Nat.zero_le 1)
  unfold ofJson? at h
  split at h
  · obtain ⟨k, fs, rfl, hread⟩ := record?_eq_some h
    split at hread
    · obtain ⟨v, hv, hread⟩ := Option.bind_eq_some_iff.1 hread
      obtain ⟨e, he, hread⟩ := Option.bind_eq_some_iff.1 hread
      cases hread
      have hvar := hvars.bound k _ v hv
      have hexpr := hexprs.bound k _ e he
      exact ⟨hexpr.1, depth_variant_le_max ⟨hvar.2, hexpr.2, trivial⟩⟩
    · cases hread
  · obtain ⟨k, fs, rfl, hread⟩ := record?_eq_some h
    split at hread
    · obtain ⟨a, ha, hread⟩ := Option.bind_eq_some_iff.1 hread
      obtain ⟨i, hi, hread⟩ := Option.bind_eq_some_iff.1 hread
      obtain ⟨e, he, hread⟩ := Option.bind_eq_some_iff.1 hread
      cases hread
      have hvar := hvars.bound k _ a ha
      have hindex := hexprs.bound k _ i hi
      have hexpr := hexprs.bound k _ e he
      exact ⟨⟨hindex.1, hexpr.1⟩, depth_variant_le_max ⟨hvar.2, hindex.2, hexpr.2, trivial⟩⟩
    · cases hread
  · obtain ⟨k, fs, rfl, hread⟩ := record?_eq_some h
    split at hread
    · obtain ⟨e, he, rfl⟩ := Option.map_eq_some_iff.1 hread
      have hexpr := hexprs.bound k _ e he
      exact ⟨hexpr.1, depth_variant_le_max ⟨hexpr.2, trivial⟩⟩
    · cases hread
  · obtain ⟨k, fs, rfl, hread⟩ := record?_eq_some h
    split at hread
    · obtain ⟨e, he, rfl⟩ := Option.map_eq_some_iff.1 hread
      have hexpr := hexprs.bound k _ e he
      exact ⟨hexpr.1, depth_variant_le_max ⟨hexpr.2, trivial⟩⟩
    · cases hread
  · obtain ⟨k, fs, rfl, hread⟩ := record?_eq_some h
    split at hread
    · obtain ⟨lhs, hlhs, hread⟩ := Option.bind_eq_some_iff.1 hread
      obtain ⟨f, -, hread⟩ := Option.bind_eq_some_iff.1 hread
      obtain ⟨args, hargs, hread⟩ := Option.bind_eq_some_iff.1 hread
      cases hread
      have hresults := (Var.codec.bound_itemsOrNone hlhs).2
      have harguments := (Var.codec.bound_itemsOrNone hargs).2
      exact ⟨trivial, depth_variant_le_max ⟨hresults, Nat.zero_le _, harguments, trivial⟩⟩
    · cases hread
  · cases h

theorem codec : Codec toJson ofJson? InRange 3 :=
  ⟨written_toJson, fun _ _ => decode_toJson, fun _ _ _ => bound_ofJson?⟩

end Statement

/-! ## Locations -/

def Edge.InRange (e : Edge) : Prop := Word64.Unsigned e.target ∧ e.statement.InRange

theorem Edge.codec : Codec Edge.toJson Edge.ofJson? Edge.InRange 4 where
  written e := .object (by simp [Json.Written.int, Statement.written_toJson])
  decode levels e hrange hdepth := by
    obtain ⟨k, rfl, -, hs, -⟩ := depth_object_le.1 hdepth
    have hfields : ∀ t s : Json, Edge.ofJson? (k + 1) (.object [("target", t), ("statement", s)]) =
        t.unsigned64?.bind fun t => (Statement.ofJson? k s).bind fun s => some (Edge.mk t s) :=
      fun _ _ => rfl
    rw [Edge.toJson, hfields, Json.unsigned64?_int hrange.1, Statement.decode_toJson hrange.2 hs]
    rfl
  bound levels j e hread := by
    obtain ⟨k, fs, rfl, h⟩ := record?_eq_some hread
    split at h
    · obtain ⟨t, ht, h⟩ := Option.bind_eq_some_iff.1 h
      obtain ⟨s, hs, h⟩ := Option.bind_eq_some_iff.1 h
      cases h
      have hstatement := Statement.bound_ofJson? hs
      exact ⟨⟨Json.unsigned_of_unsigned64? ht, hstatement.1⟩,
        depth_object_le_max ⟨Nat.zero_le _, hstatement.2, trivial⟩⟩
    · cases h

namespace Location

def Kind.InRange : Kind → Prop
  | .entry cs rs => (∀ e ∈ cs, e.InRange) ∧ ∀ e ∈ rs, e.InRange
  | .exit cs => ∀ e ∈ cs, e.InRange
  | .loopHead is rs => (∀ e ∈ is, e.InRange) ∧ ∀ e ∈ rs, e.InRange
  | .plain => True

theorem Kind.written_toJson (k : Kind) : k.toJson.Written := by
  cases k with
  | entry cs rs => exact .object (by simpa using .object (by simp [Expr.codec.written_items]))
  | exit cs => exact .object (by simpa using .object (by simp [Expr.codec.written_items]))
  | loopHead is rs => exact .object (by simpa using .object (by simp [Expr.codec.written_items]))
  | plain => exact .text "plain"

theorem Kind.decode_toJson {levels : Nat} {kind : Kind} (hrange : kind.InRange)
    (hdepth : kind.toJson.depth ≤ levels) : ofJson? levels kind.toJson = some kind := by
  cases kind with
  | entry cs rs =>
    obtain ⟨k, rfl, hcs, hrs, -⟩ := depth_variant_le.1 hdepth
    show (Json.items? k Expr.ofJson? (.arr (cs.map Expr.toJson))).bind (fun cs =>
      (Json.items? k Expr.ofJson? (.arr (rs.map Expr.toJson))).bind fun rs => some (entry cs rs)) =
        _
    rw [Expr.codec.decode_items hrange.1 hcs, Expr.codec.decode_items hrange.2 hrs]
    rfl
  | exit cs =>
    obtain ⟨k, rfl, hcs, -⟩ := depth_variant_le.1 hdepth
    show (Json.items? k Expr.ofJson? (.arr (cs.map Expr.toJson))).map exit = _
    rw [Expr.codec.decode_items hrange hcs]
    rfl
  | loopHead is rs =>
    obtain ⟨k, rfl, his, hrs, -⟩ := depth_variant_le.1 hdepth
    show (Json.items? k Expr.ofJson? (.arr (is.map Expr.toJson))).bind (fun is =>
      (Json.items? k Expr.ofJson? (.arr (rs.map Expr.toJson))).bind fun rs =>
        some (loopHead is rs)) = _
    rw [Expr.codec.decode_items hrange.1 his, Expr.codec.decode_items hrange.2 hrs]
    rfl
  | plain => cases levels <;> rfl

theorem Kind.bound_ofJson? {levels : Nat} {j : Json} {kind : Kind}
    (h : ofJson? levels j = some kind) : kind.InRange ∧ kind.toJson.depth ≤ max levels 3 := by
  unfold ofJson? at h
  split at h
  · cases h
    exact ⟨trivial, Nat.zero_le _⟩
  · cases h
    exact ⟨trivial, Nat.zero_le _⟩
  · obtain ⟨k, fs, rfl, hread⟩ := record?_eq_some h
    split at hread
    · obtain ⟨cs, hcs, hread⟩ := Option.bind_eq_some_iff.1 hread
      obtain ⟨rs, hrs, hread⟩ := Option.bind_eq_some_iff.1 hread
      cases hread
      have hconditions := Expr.codec.bound_itemsOrNone hcs
      have hrankings := Expr.codec.bound_itemsOrNone hrs
      exact ⟨⟨hconditions.1, hrankings.1⟩,
        depth_variant_le_max ⟨hconditions.2, hrankings.2, trivial⟩⟩
    · cases hread
  · obtain ⟨k, fs, rfl, hread⟩ := record?_eq_some h
    split at hread
    · obtain ⟨cs, hcs, rfl⟩ := Option.map_eq_some_iff.1 hread
      have hconditions := Expr.codec.bound_itemsOrNone hcs
      exact ⟨hconditions.1, depth_variant_le_max ⟨hconditions.2, trivial⟩⟩
    · cases hread
  · obtain ⟨k, fs, rfl, hread⟩ := record?_eq_some h
    split at hread
    · obtain ⟨is, his, hread⟩ := Option.bind_eq_some_iff.1 hread
      obtain ⟨rs, hrs, hread⟩ := Option.bind_eq_some_iff.1 hread
      cases hread
      have hinvariants := Expr.codec.bound_itemsOrNone his
      have hrankings := Expr.codec.bound_itemsOrNone hrs
      exact ⟨⟨hinvariants.1, hrankings.1⟩,
        depth_variant_le_max ⟨hinvariants.2, hrankings.2, trivial⟩⟩
    · cases hread
  · cases h

theorem Kind.codec : Codec Kind.toJson Kind.ofJson? Kind.InRange 3 :=
  ⟨Kind.written_toJson, fun _ _ => Kind.decode_toJson, fun _ _ _ => Kind.bound_ofJson?⟩

def InRange (l : Location) : Prop := l.kind.InRange ∧ ∀ e ∈ l.edges, e.InRange

theorem codec : Codec toJson ofJson? InRange 6 where
  written l := .object (by simp [Kind.written_toJson, Edge.codec.written_items])
  decode levels l hrange hdepth := by
    obtain ⟨k, rfl, hkind, hedges, -⟩ := depth_object_le.1 hdepth
    show (Kind.ofJson? k l.kind.toJson).bind
      (fun kind => (Json.items? k Edge.ofJson? (.arr (l.edges.map Edge.toJson))).bind fun es =>
      some (Location.mk kind es)) = _
    rw [Kind.decode_toJson hrange.1 hkind, Edge.codec.decode_items hrange.2 hedges]
    rfl
  bound levels j l hread := by
    obtain ⟨k, fs, rfl, h⟩ := record?_eq_some hread
    split at h
    · obtain ⟨kind, hkind, h⟩ := Option.bind_eq_some_iff.1 h
      obtain ⟨es, hes, h⟩ := Option.bind_eq_some_iff.1 h
      cases h
      have hkinds := (Kind.codec.mono (show 3 ≤ 5 by decide)).bound k _ kind hkind
      have hedges := Edge.codec.bound_itemsOrNone hes
      exact ⟨⟨hkinds.1, hedges.1⟩, depth_object_le_max ⟨hkinds.2, hedges.2, trivial⟩⟩
    · cases h

end Location

/-! ## Procedures and programs -/

def Procedure.InRange (f : Procedure) : Prop :=
  Word64.Unsigned f.entry ∧ Word64.Unsigned f.exit ∧ ∀ l ∈ f.locations, l.InRange

theorem Procedure.codec : Codec Procedure.toJson Procedure.ofJson? Procedure.InRange 8 where
  written f := .object (by
    simp [Json.Written.text, Json.Written.int, Var.codec.written_items,
      Location.codec.written_items])
  decode levels f hrange hdepth := by
    obtain ⟨k, rfl, -, hparameters, hresults, -, -, hlocations, -⟩ := depth_object_le.1 hdepth
    show (Json.items? k Var.ofJson? (.arr (f.parameters.map Var.toJson))).bind (fun ps =>
      (Json.items? k Var.ofJson? (.arr (f.results.map Var.toJson))).bind fun rs =>
      (Json.unsigned64? (.int f.entry)).bind fun entry =>
        (Json.unsigned64? (.int f.exit)).bind fun exit =>
      (Json.items? k Location.ofJson? (.arr (f.locations.map Location.toJson))).bind fun ls =>
      some (Procedure.mk f.name ps rs entry exit ls)) = _
    rw [Var.codec.decode_items (fun _ _ => trivial) hparameters,
      Var.codec.decode_items (fun _ _ => trivial) hresults, Json.unsigned64?_int hrange.1,
      Json.unsigned64?_int hrange.2.1, Location.codec.decode_items hrange.2.2 hlocations]
    rfl
  bound levels j f hread := by
    obtain ⟨k, fs, rfl, h⟩ := record?_eq_some hread
    split at h
    · obtain ⟨name, -, h⟩ := Option.bind_eq_some_iff.1 h
      obtain ⟨ps, hps, h⟩ := Option.bind_eq_some_iff.1 h
      obtain ⟨rs, hrs, h⟩ := Option.bind_eq_some_iff.1 h
      obtain ⟨entry, hentry, h⟩ := Option.bind_eq_some_iff.1 h
      obtain ⟨exit, hexit, h⟩ := Option.bind_eq_some_iff.1 h
      obtain ⟨ls, hls, h⟩ := Option.bind_eq_some_iff.1 h
      cases h
      have hparameters := ((Var.codec.mono (Nat.zero_le 6)).bound_itemsOrNone hps).2
      have hresults := ((Var.codec.mono (Nat.zero_le 6)).bound_itemsOrNone hrs).2
      obtain ⟨-, hrange, hlocations⟩ := Location.codec.bound_items hls
      exact ⟨⟨Json.unsigned_of_unsigned64? hentry, Json.unsigned_of_unsigned64? hexit, hrange⟩,
        depth_object_le_max ⟨Nat.zero_le _, hparameters, hresults, Nat.zero_le _, Nat.zero_le _,
        hlocations, trivial⟩⟩
    · cases h

namespace Program

/-- Literals fit into 64 bits with a sign, and numbers of locations into 64 bits without. -/
def InRange (p : Program) : Prop := (∀ q ∈ p.predicates, q.InRange) ∧ ∀ f ∈ p.procedures, f.InRange

theorem codec : Codec toJson ofJson? InRange 10 where
  written p := .object (by simp [Predicate.codec.written_items, Procedure.codec.written_items])
  decode levels p hrange hdepth := by
    obtain ⟨k, rfl, hpredicates, hprocedures, -⟩ := depth_object_le.1 hdepth
    show (Json.items? k Predicate.ofJson? (.arr (p.predicates.map Predicate.toJson))).bind
      (fun ps =>
      (Json.items? k Procedure.ofJson? (.arr (p.procedures.map Procedure.toJson))).bind fun fs =>
        some (Program.mk ps fs)) = _
    rw [Predicate.codec.decode_items hrange.1 hpredicates,
      Procedure.codec.decode_items hrange.2 hprocedures]
    rfl
  bound levels j p hread := by
    obtain ⟨k, fs, rfl, h⟩ := record?_eq_some hread
    split at h
    · obtain ⟨ps, hps, h⟩ := Option.bind_eq_some_iff.1 h
      obtain ⟨gs, hgs, h⟩ := Option.bind_eq_some_iff.1 h
      cases h
      have hpredicates := (Predicate.codec.mono (Nat.zero_le 8)).bound_itemsOrNone hps
      have hprocedures := Procedure.codec.bound_itemsOrNone hgs
      exact ⟨⟨hpredicates.1, hprocedures.1⟩,
        depth_object_le_max ⟨hpredicates.2, hprocedures.2, trivial⟩⟩
    · cases h

/-- The text of a program is its JSON value. It is read as the program exactly if the numbers are in
range and the text is not too deep, which is so for every program that was read from some text. -/
theorem text_round_trip (p : Program) :
    Json.parse? p.toText = some p.toJson ∧
    (ofText? p.toText = some p ↔ p.InRange ∧ p.toJson.depth ≤ maxLevels) ∧
    ∀ text, ofText? text = some p → ofText? p.toText = some p := by
  have hparse : Json.parse? p.toText = some p.toJson := Json.parse?_render (codec.written p)
  -- both halves of the equivalence are about any text that is read as the program
  have hread : ∀ text, ofText? text = some p → p.InRange ∧ p.toJson.depth ≤ maxLevels := by
    intro text h
    obtain ⟨j, -, hj⟩ := Option.bind_eq_some_iff.1 h
    obtain ⟨hrange, hdepth⟩ := codec.bound maxLevels j p hj
    exact ⟨hrange, hdepth⟩
  have hwrite : p.InRange ∧ p.toJson.depth ≤ maxLevels → ofText? p.toText = some p := by
    rintro ⟨hrange, hdepth⟩
    rw [ofText?, hparse]
    exact codec.decode maxLevels p hrange hdepth
  exact ⟨hparse, ⟨hread p.toText, hwrite⟩, fun text h => hwrite (hread text h)⟩

end Program

namespace Odd

/-- A quote, a backslash, two control characters and a letter that is no ASCII. -/
def odd : Var := ⟨"a\"\\\n\x01é", .array (.array .bool)⟩

/-- Extreme numbers, a location that is not there, and lists that may be left out. -/
def program : Program where
  predicates := [⟨"", [odd], .quant .ex [odd] (.select (.var odd) (.int (-9223372036854775808)))⟩]
  procedures := [⟨odd.name, [], [odd], 18446744073709551615, 0,
    [⟨.plain, [⟨7, .call [] "" [odd]⟩]⟩,
    ⟨.loopHead [.apply "" []] [.int 9223372036854775807], []⟩]⟩]

theorem inRange : program.InRange := by
  simp [program, Program.InRange, Predicate.InRange, Procedure.InRange, Location.InRange,
    Location.Kind.InRange, Edge.InRange, Statement.InRange, Expr.InRange, Expr.InRangeAll,
    Word64.Signed, Word64.Unsigned]

theorem text_round_trip_odd :
    program.InRange ∧ program.toJson.depth ≤ Program.maxLevels ∧
    Json.parse? program.toText = some program.toJson ∧
    Program.ofText? program.toText = some program :=
  have hdepth : program.toJson.depth ≤ Program.maxLevels := by decide
  ⟨inRange, hdepth, (Program.text_round_trip program).1,
    (Program.text_round_trip program).2.1.2 ⟨inRange, hdepth⟩⟩

end Odd

end Cutpoint
