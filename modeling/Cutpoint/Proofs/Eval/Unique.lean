import Cutpoint.Proofs.Eval.Sorted

/-!
# The value of an expression is the only one

Evaluation passes over parts of an expression, and counts in 64 bits. Where it still ends with a
value, that is the one value that the expression has over all integers, with nothing passed over,
whatever the parts without a value are taken to be.

* `Assignment.bindings`: the elements that an assignment has for names;
* `Evaluator.Respects`: what predicates denote is a reading of their definitions, as far as the
  sorts of the expression tell;
* `Evaluator.reads_iff_of_eval`: the readings of an expression are the value of evaluation.
-/

set_option autoImplicit false

namespace Cutpoint

/-- The elements that the assignment has for names; of two variables of one name the later
counts. -/
def Assignment.bindings (a : Assignment) : Bindings :=
  Bindings.none.bind (a.map Prod.fst) (a.map fun p => p.2.element)

theorem Assignment.bindings_env (a : Assignment) : a.env.bindings = a.bindings := by
  have hzip : a.env = Env.ofParameters (a.map Prod.fst) (a.map Prod.snd) := by
    rw [env, Env.ofParameters, Var.names, List.map_map, List.zip_map']
    rfl
  rw [hzip, Env.bindings_ofParameters, List.map_map]
  rfl

namespace Evaluator
variable {ev : Evaluator}

/-- What predicates denote is a reading of their definitions as far as sorts tell: for arguments of
the right sorts if the expression, the values of its variables and the definitions are well-sorted,
else for all arguments. -/
def Respects (ev : Evaluator) (I : Meanings) (e : Expr) (env : Env) : Prop :=
  I.Satisfies ev.Within ev.predicates ∨
    (I.SatisfiesSorted ev.Within ev.predicates ∧ ev.predicates.Sorted ∧
    SortedIn ev.predicates.signature e env)

theorem evalIn_respects {I : Meanings} {e : Expr} {env : Env} (hI : ev.Respects I e env) {v : Value}
    (h : ev.evalIn e env = .ok v) {d : Element} (hd : I.Reads ev.Within env.bindings e d) :
    d = v.element := by
  rcases hI with hI | ⟨hI, hps, hsorted⟩
  · -- any arguments will do
    have hall : ∀ depth, ev.Invariant (enterAt ev depth) (fun _ _ => True) fun _ _ => True :=
        fun depth =>
      ⟨fun _ => trivial, fun _ => trivial, fun _ => trivial, fun _ _ _ => trivial,
        fun _ _ _ => trivial, fun _ _ _ => trivial⟩
    refine evalIn_reading hall (fun _ _ _ _ _ => rfl) ⟨?_, fun _ _ _ _ => trivial⟩ trivial h hd
    intro name p hp xs hlen _
    exact hI name p hp _ (by rw [List.length_map, hlen])
  · -- the arguments have the sorts of the parameters
    refine evalIn_reading (invariant_sorted hps) (fun _ _ _ _ _ => rfl) ⟨?_, ?_⟩ hsorted h hd
    · intro name p hp xs _ hxs
      exact hI name p hp _ (typed_of_signature hp hxs)
    · intro name p hp xs _ hxs
      exact sortedIn_body hps hp hxs

/-- **Evaluation is exact**: if it ends with a value, then an expression can be read in one way
only, and so it has that value. A reading is over all integers, looks at all parts of the expression
and at all instances of a quantifier, takes the predicates as anything that satisfies their
definitions (`Evaluator.Respects`), and gives any value to a part that has none. Unless expression
and table are well-sorted, the definitions have to be satisfied at all arguments, also of other
sorts than the parameters have. -/
theorem reads_iff_of_eval {e : Expr} {a : Assignment} {v : Value} (h : ev.eval e a = .ok v)
    {I : Meanings} (hI : ev.Respects I e a.env) (d : Element) :
    I.Reads ev.Within a.bindings e d ↔ d = v.element := by
  have hunique : ∀ c, I.Reads ev.Within a.bindings e c → c = v.element := by
    rw [← a.bindings_env]
    exact fun c hc => evalIn_respects hI h hc
  constructor
  · exact hunique d
  · rintro rfl
    obtain ⟨c, hc⟩ := I.exists_reads ev.Within a.bindings e
    rw [← hunique c hc]
    exact hc

end Evaluator

namespace Division

def i : Var := ⟨"i", .int⟩

def n : Var := ⟨"n", .int⟩

def positive : Predicate := ⟨"positive", [n], .binary .gt (.var n) (.int 0)⟩

def evaluator : Evaluator := ⟨[positive], -2, 2⟩

/-- The division of 7 by each integer but 0 gives 7 back, which is asked where `n` is positive. What
is asked where `n` is negative makes no sense: it adds a truth value to a name without a value. -/
def formula : Expr :=
  .binary .and
    (.binary .implies (.apply "positive" [.var n])
      (.quant .all [i] (.binary .or (.binary .eq (.var i) (.int 0))
        (.binary .eq (.binary .add (.binary .mul (.var i) (.binary .div (.int 7) (.var i)))
        (.binary .mod (.int 7) (.var i))) (.int 7)))))
    (.binary .implies (.binary .lt (.var n) (.int 0))
    (.binary .eq (.binary .add (.var ⟨"m", .int⟩) (.bool true)) (.int 1)))

open Classical in
noncomputable def meanings : Meanings := fun _ ds => .bool (decide (∃ m, ds = [.int m] ∧ m > 0))

theorem satisfies : meanings.Satisfies evaluator.Within evaluator.predicates := by
  intro name p hp ds hlen
  obtain ⟨rfl, -⟩ : positive = p ∧ _ := by simpa [evaluator, Predicates.find?, and_comm] using hp
  obtain ⟨d, rfl⟩ := List.length_eq_one_iff.1 hlen
  refine ⟨d, .int 0, ?_, rfl, ?_⟩
  · rintro c ⟨⟩
    rfl
  · rintro m k rfl hk
    obtain rfl := Element.int_inj.1 hk
    simp [meanings]

end Division

theorem Evaluator.reads_iff_of_eval_division :
    Division.evaluator.eval Division.formula [(Division.n, .int 3)] = .ok (.bool true) ∧
      ∀ d, Division.meanings.Reads Division.evaluator.Within
        (Assignment.bindings [(Division.n, .int 3)]) Division.formula d ↔
        d = .bool true := by
  have heval : Division.evaluator.eval Division.formula [(Division.n, .int 3)] = .ok (.bool true) :=
    rfl
  exact ⟨heval, Evaluator.reads_iff_of_eval heval (.inl Division.satisfies)⟩

end Cutpoint
