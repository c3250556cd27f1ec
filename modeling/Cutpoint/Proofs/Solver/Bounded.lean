import Cutpoint.Proofs.Eval.Sorted
import Cutpoint.Proofs.Expr.Order
import Cutpoint.Proofs.Solver.Reach

/-!
# Bounded search is sound

* `Bounded.exists_assignmentAt`: the search comes to every choice of values;
* `Bounded.scan_eq_exhausted`, `Bounded.scan_eq_falsified`: what the end of a scan says about the
  assignments it went through;
* `Bounded.holds_exact`: an assignment that makes a searched formula true or false does so in every
  model that agrees with the definitions;
* `Bounded.check_sound`: a formula that is found valid is true for all values of its free variables,
  and one that is found invalid is false for the values that are reported.
-/

set_option autoImplicit false

namespace Cutpoint

/-! ## Assignments -/

namespace Env

theorem mem_of_get? {env : Env} {x : String} {v : Value} (h : env.get? x = .ok v) :
    (x, v) ∈ env := by
  induction env with
  | nil => cases h
  | cons p env ih =>
    rcases p with ⟨y, w⟩
    rw [get?_cons] at h
    split at h
    · next hyx =>
      obtain rfl := Except.ok.inj h
      exact hyx ▸ List.mem_cons_self
    · exact List.mem_cons_of_mem _ (ih h)

theorem get?_of_mem {env : Env} (hnodup : (env.map Prod.fst).Nodup) {x : String} {v : Value}
    (h : (x, v) ∈ env) : env.get? x = .ok v := by
  induction env with
  | nil => cases h
  | cons p env ih =>
    rcases p with ⟨y, w⟩
    obtain ⟨hy, hnodup⟩ := List.nodup_cons.1 hnodup
    rw [get?_cons]
    rcases List.mem_cons.1 h with heq | h
    · cases heq
      exact if_pos rfl
    · have hne : y ≠ x := fun hyx => hy (hyx ▸ List.mem_map.2 ⟨(x, v), h, rfl⟩)
      rw [if_neg hne]
      exact ih hnodup h

end Env

namespace Assignment

/-- The assignment that gives each variable the value of its name. -/
def ofNames (vs : List Var) (xs : String → Value) : Assignment := vs.map fun v => (v, xs v.name)

theorem agrees_ofNames {vs : List Var} {xs : String → Value} {σ : Valuation}
    (h : ∀ v ∈ vs, σ v.name = (xs v.name).element) : (ofNames vs xs).env.Agrees σ := by
  intro x v hv
  have hmem := Env.mem_of_get? hv
  simp only [env, ofNames, List.mem_reverse, List.map_map, List.mem_map, Function.comp,
    Prod.mk.injEq] at hmem
  obtain ⟨w, hw, rfl, rfl⟩ := hmem
  exact h w hw

/-- Where the names are different, an assignment goes by names. -/
theorem exists_ofNames {a : Assignment} (h : (Var.names (a.map Prod.fst)).Nodup) :
    ∃ xs : String → Value, a = ofNames (a.map Prod.fst) xs := by
  have hnodup : (a.env.map Prod.fst).Nodup := by
    rw [env, List.map_reverse, List.nodup_reverse, List.map_map]
    rw [Var.names, List.map_map] at h
    exact h
  refine ⟨fun x => (a.env.get? x).toOption.getD (.int 0), ?_⟩
  rw [ofNames, List.map_map]
  refine ((List.map_congr_left fun p hp => ?_).trans (List.map_id a)).symm
  have hget : a.env.get? p.1.name = .ok p.2 :=
    Env.get?_of_mem hnodup
      (List.mem_reverse.2 (List.mem_map_of_mem (f := fun p => (p.1.name, p.2)) hp))
  show (p.1, (a.env.get? p.1.name).toOption.getD (.int 0)) = p
  rw [hget]
  rfl

end Assignment

namespace Bounded
variable {b : Bounded}

/-! ## Enumeration -/

theorem assignmentAt_fst (vs : List Var) (k : Nat) : (b.assignmentAt vs k).map Prod.fst = vs := by
  induction vs generalizing k with
  | nil => rfl
  | cons v vs ih =>
    show v :: (b.assignmentAt vs (k / b.size v)).map Prod.fst = v :: vs
    rw [ih]

theorem valueAt_ty {v : Var} (h : v.ty.isArray = false)
    (i : Nat) : (valueAt v i).element.ty = v.ty := by
  unfold valueAt
  cases hty : v.ty with
  | int | bool => rfl
  | array t =>
    rw [hty] at h
    cases h

theorem assignmentAt_ty {vs : List Var} (hvs : ∀ v ∈ vs, v.ty.isArray = false) {k : Nat}
    {p : Var × Value} (hp : p ∈ b.assignmentAt vs k) : p.2.element.ty = p.1.ty := by
  induction vs generalizing k with
  | nil => cases hp
  | cons v vs ih =>
    rcases List.mem_cons.1 hp with rfl | hp
    · exact valueAt_ty (hvs v List.mem_cons_self) _
    · exact ih (fun w hw => hvs w (List.mem_cons_of_mem _ hw)) hp

/-- The lowest digit of an index is that of the first variable. -/
theorem assignmentAt_cons_add {v : Var} (vs : List Var) {r : Nat} (hr : r < b.size v) (q : Nat) :
    b.assignmentAt (v :: vs) (r + b.size v * q) = (v, valueAt v r) :: b.assignmentAt vs q := by
  obtain ⟨hdiv, hmod⟩ := (Nat.div_mod_unique (Nat.zero_lt_of_lt hr)).2 ⟨rfl, hr⟩
  show (v, valueAt v ((r + b.size v * q) % b.size v)) ::
    b.assignmentAt vs ((r + b.size v * q) / b.size v) = _
  rw [hdiv, hmod]

/-- The search comes to every choice of values: its index has the choices as digits. -/
theorem exists_assignmentAt (vs : List Var) (digit : Var → Nat) (h : ∀ v ∈ vs, digit v < b.size v) :
    ∃ k, k < b.space vs ∧ b.assignmentAt vs k = vs.map fun v => (v, valueAt v (digit v)) := by
  induction vs with
  | nil => exact ⟨0, Nat.one_pos, rfl⟩
  | cons v vs ih =>
    obtain ⟨k, hk, hat⟩ := ih fun w hw => h w (List.mem_cons_of_mem _ hw)
    have hdigit := h v List.mem_cons_self
    refine ⟨digit v + b.size v * k, ?_, ?_⟩
    · show digit v + b.size v * k < b.size v * b.space vs
      calc digit v + b.size v * k < b.size v + b.size v * k := Nat.add_lt_add_right hdigit _
        _ = b.size v * (k + 1) := by rw [Nat.mul_add, Nat.mul_one, Nat.add_comm]
        _ ≤ b.size v * b.space vs := Nat.mul_le_mul_left _ hk
    · rw [assignmentAt_cons_add vs hdigit k, hat, List.map_cons]

/-- The search comes to every choice of truth values. -/
theorem exists_assignmentAt_bool {vs : List Var} (hvs : ∀ v ∈ vs, v.ty = .bool)
    {xs : String → Value} (hxs : ∀ v ∈ vs, (xs v.name).element.ty = .bool) :
    ∃ k, k < b.space vs ∧ b.assignmentAt vs k = .ofNames vs xs := by
  obtain ⟨k, hk, hat⟩ := b.exists_assignmentAt vs (fun v => if xs v.name = .bool true then 1 else 0)
    fun v hv => by
    rw [size, hvs v hv]
    show (if xs v.name = .bool true then 1 else 0) < 2
    split <;> omega
  refine ⟨k, hk, hat.trans (List.map_congr_left fun v hv => ?_)⟩
  have hbool := hxs v hv
  rw [valueAt, hvs v hv]
  cases hx : xs v.name with
  | int n =>
    rw [hx] at hbool
    cases hbool
  | bool c => cases c <;> simp [Ty.isBool]

/-! ## Scans -/

theorem scan_eq_exhausted {vs : List Var} {e : Expr} {count k : Nat}
    (h : b.scan vs e count k = .exhausted) :
    ∀ j, k ≤ j → j < k + count → b.evaluator.holds e (b.assignmentAt vs j) = .ok true := by
  induction count generalizing k with
  | zero =>
    intro j hle hlt
    omega
  | succ count ih =>
    rw [scan] at h
    split at h
    · next htrue =>
      intro j hle hlt
      by_cases hj : j = k
      · rw [hj, htrue]
      · exact ih h j (by omega) (by omega)
    · cases h
    · cases h

theorem scan_eq_falsified {vs : List Var} {e : Expr} {count k : Nat} {cex : Counterexample}
    (h : b.scan vs e count k = .falsified cex) :
    ∃ j, b.evaluator.holds e (b.assignmentAt vs j) = .ok false ∧
      cex.assignments = (b.assignmentAt vs j).map fun p => (p.1.name, p.2.text) := by
  induction count generalizing k with
  | zero => cases h
  | succ count ih =>
    rw [scan] at h
    split at h
    · exact ih h
    · next hfalse =>
      cases h
      exact ⟨k, hfalse, rfl⟩
    · cases h

/-! ## Truth -/

/-- A searched formula has no array variables and no quantifiers, and the search went through all
assignments. -/
theorem search_eq {e : Expr} {r : Search} (h : b.search e = r) (hr : ∀ cause, r ≠ .gaveUp cause) :
    (∀ v ∈ e.free, v.ty.isArray = false) ∧ quantified b.predicates e = false ∧
    b.scan e.free e (b.space e.free) 0 = r := by
  unfold search at h
  dsimp only at h
  split at h
  · exact absurd h.symm (hr _)
  · next harray =>
    split at h
    · exact absurd h.symm (hr _)
    · next hquant =>
      split at h
      · exact absurd h.symm (hr _)
      · exact ⟨fun v hv => by simpa using List.find?_eq_none.1 harray v hv, by simpa using hquant,
          h⟩

/-- The truth value of a formula without quantifiers is the one it has in every model that agrees
with the definitions. -/
theorem holds_exact {e : Expr} (hplain : quantified b.predicates e = false) {M : Model}
    (hM : M.Respects b.predicates e) {a : Assignment} {σ : Valuation} (hσ : σ.Fits e.free)
    (ha : a.env.Agrees σ) {c : Bool} (h : b.evaluator.holds e a = .ok c) :
    M.value σ e = .bool c := by
  obtain ⟨v, hv, hc⟩ := bind_eq_ok.1 h
  obtain rfl := Value.bool?_eq_ok hc
  obtain ⟨he, hbodies⟩ := plain_of_quantified hplain
  have hreached := fun depth => @Evaluator.invariant_reached b.evaluator
    (b.evaluator.enterAt depth) b.predicates (b.predicates.reached e)
  rcases hM with hM | ⟨hM, hsorted, hps⟩
  · -- the model agrees with the definitions for all arguments
    refine Evaluator.evalIn_exact hreached
      (fun q bs e env hc => absurd hc.plain (by simp [Expr.hasQuantifier])) ⟨?_, ?_⟩ he ha hv
    · intro name p hp xs hlen _
      obtain ⟨τ, hτ⟩ := hM name p hp (xs.map Value.element) (by simpa using hlen)
      exact ⟨τ, Predicates.name_of_find? hp ▸ hτ⟩
    · intro name p hp xs _ hfound
      exact hbodies p (hfound p hp)
  · -- the arguments have the sorts of the parameters
    refine Evaluator.evalIn_exact
      (fun depth => (hreached depth).and (Evaluator.invariant_sorted hps depth))
      (fun q bs e env hc => absurd hc.1.plain (by simp [Expr.hasQuantifier])) ⟨?_, ?_⟩
      ⟨he, hsorted.1, hsorted.2, fun v hv x hx => (ha v.name x hx) ▸ hσ v hv⟩ ha hv
    · intro name p hp xs _ hxs
      obtain ⟨τ, hτ⟩ := hM name p hp (xs.map Value.element) (Evaluator.typed_of_signature hp hxs.2)
      exact ⟨τ, Predicates.name_of_find? hp ▸ hτ⟩
    · intro name p hp xs _ hxs
      exact ⟨hbodies p (hxs.1 p hp), Evaluator.sortedIn_body hps hp hxs.2⟩

theorem validity_eq_valid {e : Expr} (h : b.validity e = .valid) :
    b.search e = .exhausted ∧ ∀ v ∈ e.free, v.ty = .bool := by
  unfold validity at h
  split at h
  · cases h
  · cases h
  · next hsearch =>
    split at h
    · next hbool =>
      refine ⟨hsearch, fun v hv => ?_⟩
      have hv := List.all_eq_true.1 hbool v hv
      cases hty : v.ty with
      | bool => rfl
      | int | array t =>
        rw [hty] at hv
        cases hv
    · cases h

theorem validity_eq_invalid {e : Expr} {cex : Counterexample} (h : b.validity e = .invalid cex) :
    b.search e = .falsified cex := by
  unfold validity at h
  split at h
  · next hsearch =>
    obtain rfl := Validity.invalid.inj h
    exact hsearch
  · cases h
  · split at h <;> cases h

/-- The truth value of a name, for names of the sort of truth values. -/
def truthOf (σ : Valuation) (x : String) : Value := .bool ((default : Model).toBool (σ x))

theorem truthOf_element {σ : Valuation} {x : String} (h : (σ x).ty = .bool) :
    (truthOf σ x).element = σ x := by
  obtain ⟨c, hc⟩ := Element.eq_bool h
  rw [truthOf, hc, Model.toBool_bool, Value.element_bool]

/-- Whatever bound, cap and definitions the search was given: a formula that it finds valid is true
for all values of its free variables, and one that it finds invalid is false for the values it
reports, which have the sorts of the variables. This is so in the models that respect the
definitions (`Model.Respects`). Where formula and table are well-sorted, that asks for the
definitions at arguments of the sorts of the parameters; otherwise it asks for them at all
arguments, also of other sorts. -/
theorem check_sound (b : Bounded) {e : Expr} (hone : OneType e.free) :
    ((solver.check e b).1 = .ok .valid →
      ∀ M : Model, M.Respects b.predicates e → ∀ σ : Valuation, σ.Fits e.free →
        M.value σ e = .bool true) ∧
    ∀ cex, (solver.check e b).1 = .ok (.invalid cex) →
      ∃ xs : String → Value, (∀ v ∈ e.free, (xs v.name).element.ty = v.ty) ∧
        cex.assignments = (e.free.map fun v => (v.name, (xs v.name).text)) ∧
        ∀ M : Model, M.Respects b.predicates e →
          ∀ σ : Valuation, (∀ v ∈ e.free, σ v.name = (xs v.name).element) →
          M.value σ e = .bool false := by
  constructor
  · intro hvalid M hM σ hσ
    obtain ⟨hsearch, hbool⟩ := validity_eq_valid (Except.ok.inj hvalid)
    obtain ⟨-, hplain, hscan⟩ := search_eq hsearch nofun
    have htruth : ∀ v ∈ e.free, (truthOf σ v.name).element = σ v.name := fun v hv =>
      truthOf_element ((hσ v hv).trans (hbool v hv))
    have hty : ∀ v ∈ e.free, (truthOf σ v.name).element.ty = .bool := fun v hv => rfl
    obtain ⟨k, hk, hat⟩ := b.exists_assignmentAt_bool hbool hty
    have hholds := scan_eq_exhausted hscan k (Nat.zero_le k) (by omega)
    rw [hat] at hholds
    exact holds_exact hplain hM hσ (Assignment.agrees_ofNames fun v hv => (htruth v hv).symm) hholds
  · intro cex hinvalid
    obtain ⟨harray, hplain, hscan⟩ := search_eq (validity_eq_invalid (Except.ok.inj hinvalid)) nofun
    obtain ⟨k, hholds, hcex⟩ := scan_eq_falsified hscan
    have hfst := b.assignmentAt_fst e.free k
    obtain ⟨xs, hxs⟩ := Assignment.exists_ofNames (a := b.assignmentAt e.free k)
      (hfst.symm ▸ Expr.names_free_nodup hone)
    rw [hfst] at hxs
    have hty : ∀ v ∈ e.free, (xs v.name).element.ty = v.ty := fun v hv =>
      b.assignmentAt_ty harray (k := k) (p := (v, xs v.name)) (hxs ▸ List.mem_map_of_mem hv)
    rw [hxs] at hholds hcex
    refine ⟨xs, hty, ?_, fun M hM σ hσ => ?_⟩
    · rw [hcex, Assignment.ofNames, List.map_map]
      rfl
    · exact holds_exact hplain hM
        (fun v hv => (hσ v hv) ▸ hty v hv) (Assignment.agrees_ofNames hσ) hholds

/-! ## An example -/

namespace Parity

def inverse : Predicate := ⟨"inverse", [⟨"x", .bool⟩], .unary .not (.var ⟨"x", .bool⟩)⟩

def even : Predicate :=
  ⟨"even", [⟨"n", .int⟩], .binary .eq (.binary .mod (.var ⟨"n", .int⟩) (.int 2)) (.int 0)⟩

def backend : Bounded := ((ofBound 2 100).define inverse).define even

/-- `inverse(a) || a` -/
def excluded : Expr := .or (.apply "inverse" [.var ⟨"a", .bool⟩]) (.var ⟨"a", .bool⟩)

/-- `even(m) || (m == 1)` -/
def guess : Expr := .or (.apply "even" [.var ⟨"m", .int⟩]) (.binary .eq (.var ⟨"m", .int⟩) (.int 1))

/-- Both predicates as they are defined, and other names like the second. -/
def model : Model where
  pred name ds :=
    let d := ds.headD (.int 0)
    if name = "inverse" then .bool (!(default : Model).toBool d)
      else .bool (decide ((default : Model).toInt d % 2 = 0))
  length _ := 0
  divZero m := m
  modZero _ := 7
  other _ t := t.origin

theorem model_satisfies : model.Satisfies backend.predicates := by
  intro name p hp ds hlen
  have hmem : p ∈ [even, inverse] := List.mem_of_find?_eq_some hp
  simp only [List.mem_cons, List.not_mem_nil, or_false] at hmem
  obtain rfl | rfl := hmem
  · obtain ⟨d, rfl⟩ := List.length_eq_one_iff.1 hlen
    refine ⟨fun _ => .int 0, ?_⟩
    show Element.bool (decide (model.toInt d % 2 = 0)) =
      BinOp.meaning model .eq (BinOp.meaning model .mod d (.int 2)) (.int 0)
    simp [BinOp.meaning]
  · obtain ⟨d, rfl⟩ := List.length_eq_one_iff.1 hlen
    exact ⟨fun _ => .int 0, rfl⟩

theorem check_sound_parity :
    (OneType excluded.free ∧ (solver.check excluded backend).1 = .ok .valid ∧
      model.Respects backend.predicates excluded ∧
      ∀ σ : Valuation, σ.Fits excluded.free → model.value σ excluded = .bool true) ∧
    OneType guess.free ∧ (solver.check guess backend).1 = .ok (.invalid ⟨[("m", "-1")]⟩) ∧
    model.Respects backend.predicates guess ∧
      ∃ xs : String → Value, (xs "m").text = "-1" ∧ ∀ σ : Valuation, σ "m" = (xs "m").element →
        model.value σ guess = .bool false := by
  have hexcluded : OneType excluded.free := by decide
  have hguess : OneType guess.free := by decide
  have hvalid : (solver.check excluded backend).1 = .ok .valid := rfl
  have hinvalid : (solver.check guess backend).1 = .ok (.invalid ⟨[("m", "-1")]⟩) := rfl
  refine ⟨⟨hexcluded, hvalid, .inl model_satisfies, ?_⟩, hguess, hinvalid, .inl model_satisfies, ?_⟩
  · exact (check_sound backend hexcluded).1 hvalid model (.inl model_satisfies)
  · obtain ⟨xs, -, hcex, hfalse⟩ := (check_sound backend hguess).2 _ hinvalid
    refine ⟨xs, ?_, fun σ hσ => hfalse model (.inl model_satisfies) σ fun v hv => ?_⟩
    · have hlist : [("m", "-1")] = [("m", (xs "m").text)] := hcex
      simpa using hlist.symm
    · obtain rfl : v = ⟨"m", .int⟩ := List.mem_singleton.1 hv
      exact hσ

end Parity

end Bounded

end Cutpoint
