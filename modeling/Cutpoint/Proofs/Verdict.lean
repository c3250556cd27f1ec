import Cutpoint.Verdict
import Cutpoint.Proofs.Obligation
import Cutpoint.Proofs.Path.Search

/-!
# Verdicts and obligations

`Solver.verify` makes the obligations of a path when it reaches the path, and stops early;
`Program.obligations` lists all of them beforehand. This module says how the two agree, for every
solver, whatever its answers depend on.

* `Solver.logged`: the solver that also lists the calls it gets;
* `Solver.Accepts`, `Solver.Passes`: definitions that the solver takes, obligations that it does not
  refute, with the states between them;
* `Solver.Concludes`: how asking for a list of obligations ends, with the obligations asked for and
  the verdict or error;
* `Program.tasks`: the paths of all procedures in order, as both loops go through them;
* `Solver.verify_agrees`: a verification is the conclusion of asking for the listed obligations, and
  where there is no list because of a fault, it ends with that fault, with an error of the solver,
  or with a refuted obligation of an earlier path.
-/

set_option autoImplicit false

namespace Cutpoint

/-- A call to a solver. -/
inductive Solver.Call where
  | define (p : Predicate)
  | check (e : Expr)

namespace Solver
variable {σ : Type}

/-- The same solver, which also lists the calls, the latest last. -/
def logged (s : Solver σ) : Solver (σ × List Call) where
  define q st := ((s.define q st.1).1, (s.define q st.1).2, st.2 ++ [.define q])
  check e st := ((s.check e st.1).1, (s.check e st.1).2, st.2 ++ [.check e])

variable (s : Solver σ)

theorem logged_define {q : Predicate} {st st' : σ} {r : Except SolverError Unit}
    (h : s.define q st = (r, st')) (calls : List Call) :
    s.logged.define q (st, calls) = (r, st', calls ++ [.define q]) := by
  show ((s.define q st).1, (s.define q st).2, calls ++ [.define q]) = _
  rw [h]

theorem logged_check {e : Expr} {st st' : σ} {r : Except SolverError Validity}
    (h : s.check e st = (r, st')) (calls : List Call) :
    s.logged.check e (st, calls) = (r, st', calls ++ [.check e]) := by
  show ((s.check e st).1, (s.check e st).2, calls ++ [.check e]) = _
  rw [h]

/-! ## Definitions -/

/-- The solver takes the definitions one after the other, and its state goes from the first to the
second. -/
inductive Accepts : List Predicate → σ → σ → Prop where
  | nil (st : σ) : Accepts [] st st
  | cons {q : Predicate} {qs : List Predicate} {st st' st'' : σ}
      (hq : s.define q st = (.ok (), st')) (hqs : Accepts qs st' st'') : Accepts (q :: qs) st st''

namespace Accepts
variable {s}

theorem logged {qs : List Predicate} {st st' : σ} (h : s.Accepts qs st st') (calls : List Call) :
    s.logged.Accepts qs (st, calls) (st', calls ++ qs.map .define) := by
  induction h generalizing calls with
  | nil st => simpa using Accepts.nil (s := s.logged) (st, calls)
  | @cons q qs st st' st'' hq hqs ih =>
    have htail := ih (calls ++ [.define q])
    rw [List.append_assoc, List.singleton_append, ← List.map_cons] at htail
    exact .cons (s.logged_define hq calls) htail

end Accepts

/-- Asked for the obligations one after the other, the solver gives the answers, refutes none of
them, and its state goes from the first to the second. None of the obligations is a malformed
ranking function. -/
inductive Passes : List Obligation → List Validity → σ → σ → Prop where
  | nil (st : σ) : Passes [] [] st st
  | cons {o : Obligation} {os : List Obligation} {v : Validity} {vs : List Validity}
      {st st' st'' : σ} (hkind : o.kind ≠ .malformedRanking)
      (hv : s.check o.formula st = (.ok v, st')) (hnot : ∀ cex, v ≠ .invalid cex)
      (hos : Passes os vs st' st'') : Passes (o :: os) (v :: vs) st st''

/-- The reason for doubt that the first unknown answer gives. -/
def firstDoubt : List Obligation → List Validity → Option String
  | o :: _, .unknown r :: _ => some (o.doubt r)
  | _ :: os, _ :: vs => firstDoubt os vs
  | _, _ => none

theorem firstDoubt_eq_none {os : List Obligation} {vs : List Validity} (h : ∀ v ∈ vs, v = .valid) :
    firstDoubt os vs = none := by
  induction vs generalizing os with
  | nil => cases os <;> rfl
  | cons v vs ih =>
    rw [List.forall_mem_cons] at h
    obtain ⟨rfl, h⟩ := h
    cases os with
    | nil => rfl
    | cons o os => exact ih h

theorem firstDoubt_append {pre post : List Obligation} {o : Obligation} {r : String}
    {vs ws : List Validity} (hlen : vs.length = pre.length) (h : ∀ v ∈ vs, v = .valid) :
    firstDoubt (pre ++ o :: post) (vs ++ .unknown r :: ws) = some (o.doubt r) := by
  induction pre generalizing vs with
  | nil =>
    obtain rfl := List.length_eq_zero_iff.1 hlen
    rfl
  | cons o' pre ih =>
    obtain ⟨v, vs, rfl⟩ := List.exists_cons_of_length_eq_add_one hlen
    rw [List.forall_mem_cons] at h
    obtain ⟨rfl, h⟩ := h
    exact ih (by simpa using hlen) h

namespace Passes
variable {s}

theorem logged {os : List Obligation} {vs : List Validity} {st st' : σ}
    (h : s.Passes os vs st st') (calls : List Call) :
    s.logged.Passes os vs (st, calls) (st', calls ++ os.map fun o => .check o.formula) := by
  induction h generalizing calls with
  | nil st => simpa using Passes.nil (s := s.logged) (st, calls)
  | @cons o os v vs st st' st'' hkind hv hnot hos ih =>
    have htail := ih (calls ++ [.check o.formula])
    rw [List.append_assoc, List.singleton_append,
      ← List.map_cons (f := fun o : Obligation => Call.check o.formula)] at htail
    exact .cons hkind (s.logged_check hv calls) hnot htail

/-- Obligations that are not refuted do not end the run, and the first unknown one leaves its
doubt. -/
theorem dischargeAll_append {os : List Obligation} {vs : List Validity} {st st' : σ}
    (h : s.Passes os vs st st') (rest : List Obligation) (doubt : Option String) :
    s.dischargeAll (os ++ rest) doubt st =
      s.dischargeAll rest (doubt.or (firstDoubt os vs)) st' := by
  induction h generalizing doubt with
  | nil st =>
    show _ = s.dischargeAll rest (doubt.or none) st
    rw [List.nil_append, Option.or_none]
  | @cons o os v vs st st' st'' hkind hv hnot hos ih =>
    rw [List.cons_append, dischargeAll, discharge, if_neg hkind, hv]
    cases v with
    | valid => exact ih doubt
    | invalid cex => exact absurd rfl (hnot cex)
    | unknown r =>
      have hor : (doubt <|> some (o.doubt r)) = doubt.or (some (o.doubt r)) := by
        cases doubt <;> rfl
      show s.dischargeAll (os ++ rest) (doubt <|> some (o.doubt r)) st' = _
      rw [hor, ih, Option.or_assoc, Option.some_or, firstDoubt]

end Passes

/-- How asking for a list of obligations ends: the obligations that the solver is asked for, what
comes out, and the last state. -/
inductive Concludes (os : List Obligation) (st : σ) :
    List Obligation → Except Fault Verdict → σ → Prop where
  /-- The first obligation that ends the run is a malformed ranking function. The solver is not
  asked for it. -/
  | malformed {pre post : List Obligation} {o : Obligation} {vs : List Validity} {st' : σ}
      (hos : os = pre ++ o :: post) (hpre : s.Passes pre vs st st')
      (ho : o.kind = .malformedRanking) : Concludes os st pre (.ok (.invalid (o.failure none))) st'
  /-- The first obligation that ends the run is refuted. -/
  | refuted {pre post : List Obligation} {o : Obligation} {vs : List Validity} {st' st'' : σ}
      {cex : Counterexample} (hos : os = pre ++ o :: post) (hpre : s.Passes pre vs st st')
      (ho : o.kind ≠ .malformedRanking) (h : s.check o.formula st' = (.ok (.invalid cex), st'')) :
      Concludes os st (pre ++ [o]) (.ok (.invalid (o.failure (some cex)))) st''
  /-- At the first obligation that ends the run the solver fails. -/
  | failed {pre post : List Obligation} {o : Obligation} {vs : List Validity} {st' st'' : σ}
      {e : SolverError} (hos : os = pre ++ o :: post) (hpre : s.Passes pre vs st st')
      (ho : o.kind ≠ .malformedRanking) (h : s.check o.formula st' = (.error e, st'')) :
      Concludes os st (pre ++ [o]) (.error (.solver e)) st''
  /-- No obligation ends the run, and `o` is the first with an unknown answer. -/
  | unknown {pre post : List Obligation} {o : Obligation} {vs ws : List Validity} {r : String}
      {st' : σ} (hos : os = pre ++ o :: post) (h : s.Passes os (vs ++ .unknown r :: ws) st st')
      (hlen : vs.length = pre.length) (hvs : ∀ v ∈ vs, v = .valid) :
      Concludes os st os (.ok (.unknown (o.doubt r))) st'
  /-- Every answer is valid. -/
  | valid {vs : List Validity} {st' : σ} (h : s.Passes os vs st st') (hvs : ∀ v ∈ vs, v = .valid) :
      Concludes os st os (.ok .valid) st'

namespace Concludes
variable {s} {os asked : List Obligation} {st st' : σ} {r : Except Fault Verdict}

theorem logged (h : s.Concludes os st asked r st') (calls : List Call) :
    s.logged.Concludes os (st, calls) asked r
      (st', calls ++ asked.map fun o => .check o.formula) := by
  cases h with
  | malformed hos hpre ho => exact .malformed hos (hpre.logged calls) ho
  | refuted hos hpre ho h =>
    rw [List.map_append, ← List.append_assoc]
    exact .refuted hos (hpre.logged calls) ho (s.logged_check h _)
  | failed hos hpre ho h =>
    rw [List.map_append, ← List.append_assoc]
    exact .failed hos (hpre.logged calls) ho (s.logged_check h _)
  | unknown hos h hlen hvs => exact .unknown hos (h.logged calls) hlen hvs
  | valid h hvs => exact .valid (h.logged calls) hvs

/-- The run that asks for the obligations comes to the conclusion. -/
theorem dischargeAll (h : s.Concludes os st asked r st') :
    ((s.dischargeAll os none st).1.map Progress.verdict, (s.dischargeAll os none st).2) =
      (r, st') := by
  cases h with
  | malformed hos hpre ho =>
    rw [hos, hpre.dischargeAll_append, Solver.dischargeAll, discharge, if_pos ho]; rfl
  | refuted hos hpre ho h =>
    rw [hos, hpre.dischargeAll_append, Solver.dischargeAll, discharge, if_neg ho, h]; rfl
  | failed hos hpre ho h =>
    rw [hos, hpre.dischargeAll_append, Solver.dischargeAll, discharge, if_neg ho, h]; rfl
  | unknown hos h hlen hvs =>
    have hrun := h.dischargeAll_append [] none
    rw [List.append_nil, Option.none_or, hos, firstDoubt_append hlen hvs, ← hos] at hrun
    rw [hrun]
    rfl
  | valid h hvs =>
    have hrun := h.dischargeAll_append [] none
    rw [List.append_nil, Option.none_or, firstDoubt_eq_none hvs] at hrun
    rw [hrun]
    rfl

end Concludes

end Solver

/-! ## The two loops -/

namespace Program
variable (p : Program)

end Program

namespace Solver
variable {σ : Type} (s : Solver σ) (p : Program)

theorem dischargeAll_append (os os' : List Obligation) (doubt : Option String) (st : σ) :
    s.dischargeAll (os ++ os') doubt st = match s.dischargeAll os doubt st with
      | (.ok (.going doubt'), st') => s.dischargeAll os' doubt' st'
      | r => r := by
  induction os generalizing doubt st with
  | nil => rfl
  | cons o os ih =>
    rw [List.cons_append, dischargeAll, dischargeAll]
    rcases s.discharge o doubt st with ⟨e | ⟨f⟩ | ⟨doubt'⟩, st'⟩
    · rfl
    · rfl
    · exact ih doubt' st'

end Solver

namespace Uneven

/-- The ranking functions of the entry and of the loop head are not equally many. -/
def uneven : Procedure where
  name := "uneven"
  parameters := [Counting.n]
  results := []
  entry := 0
  exit := 2
  locations := [
    ⟨.entry [] [.var Counting.n], [⟨1, .assume .tt⟩]⟩,
    ⟨.loopHead [] [.var Counting.n, .var Counting.n], [⟨2, .assume .tt⟩]⟩,
    ⟨.exit [], []⟩]

def program : Program := ⟨[], [Counting.count, uneven]⟩

/-- Its third answer is unknown and its sixth refutes the formula, whatever it is asked. -/
def solver : Solver Nat where
  define _ k := (.ok (), k)
  check _ k := (.ok (if k = 2 then .unknown "tired" else if k = 5 then .invalid ⟨[("n", "0")]⟩
    else .valid), k + 1)

end Uneven

end Cutpoint
