import Cutpoint.Proofs.Meaning.Model

/-!
# Readings

What an expression may be taken to say where parts of it have no value. Every such part may have any
value, each time it is met: a name without a value, a division by zero, an operator with an operand
of another sort than it expects, a part that is about arrays. An expression has a single value if
all its readings agree.

* `UnOp.Reading`, `BinOp.Reading`: what operators may give, over all integers, with quotient and
  remainder as the numbers they are determined by;
* `Meanings.Reads I D ρ e d`: the expression may have the value `d`, with the integers of `D` for
  those of binders;
* `Meanings.Satisfies I D ps`: what predicates give is a reading of their definitions, which know
  their parameters only; and `Meanings.SatisfiesSorted I D ps`, for arguments of the sorts of the
  parameters;
* `Model.reads_valueIn`: the value in a model is a reading, so that there always is one.
-/

set_option autoImplicit false

namespace Cutpoint

/-! ## Operators -/

/-- The truth value that counts for an element: its own, or any if it has none. -/
def Element.Counts (d : Element) (b : Bool) : Prop := ∀ a, d = bool a → b = a

def UnOp.Reading : UnOp → Element → Element → Prop
  | not, c, x => ∀ a, c = .bool a → x = .bool !a
  | neg, c, x => ∀ m, c = .int m → x = .int (-m)

open Classical in
def BinOp.Reading : BinOp → Element → Element → Element → Prop
  | add, c, d, x => ∀ m n, c = .int m → d = .int n → x = .int (m + n)
  | sub, c, d, x => ∀ m n, c = .int m → d = .int n → x = .int (m - n)
  | mul, c, d, x => ∀ m n, c = .int m → d = .int n → x = .int (m * n)
  | div, c, d, x =>
    ∀ m n, c = .int m → d = .int n → n ≠ 0 → ∃ q r, m = n * q + r ∧ 0 ≤ r ∧
      r < n.natAbs ∧ x = .int q
  | mod, c, d, x =>
    ∀ m n, c = .int m → d = .int n → n ≠ 0 → ∃ q r, m = n * q + r ∧ 0 ≤ r ∧
      r < n.natAbs ∧ x = .int r
  | lt, c, d, x => ∀ m n, c = .int m → d = .int n → x = .bool (decide (m < n))
  | le, c, d, x => ∀ m n, c = .int m → d = .int n → x = .bool (decide (m ≤ n))
  | gt, c, d, x => ∀ m n, c = .int m → d = .int n → x = .bool (decide (m > n))
  | ge, c, d, x => ∀ m n, c = .int m → d = .int n → x = .bool (decide (m ≥ n))
  | eq, c, d, x => c.ty = d.ty → x = .bool (decide (c = d))
  | ne, c, d, x => c.ty = d.ty → x = .bool (decide (c ≠ d))
  -- either operand may decide alone, whatever the other one counts for
  | and, c, d, x => ∃ a b, c.Counts a ∧ d.Counts b ∧ x = .bool (a && b)
  | or, c, d, x => ∃ a b, c.Counts a ∧ d.Counts b ∧ x = .bool (a || b)
  | implies, c, d, x => ∃ a b, c.Counts a ∧ d.Counts b ∧ x = .bool (!a || b)
  | iff, c, d, x => c.ty = d.ty → x = .bool (decide (c = d))

/-! ## Expressions -/

/-- What predicates give for their arguments. -/
abbrev Meanings := String → List Element → Element

namespace Meanings
variable (I : Meanings) (D : Int → Prop)

mutual

/-- The expression may have the value `d`, with the integers of `D` for those of binders. -/
def Reads : Bindings → Expr → Element → Prop
  | _, .bool b, d => d = .bool b
  | _, .int n, d => d = .int n
  | ρ, .var v, d => ∀ c, ρ v.name = some c → d = c
  | ρ, .unary op e, d => ∃ c, Reads ρ e c ∧ op.Reading c d
  | ρ, .binary op l r, d => ∃ b c, Reads ρ l b ∧ Reads ρ r c ∧ op.Reading b c d
  | _, .select _ _, _ => True
  | _, .length _, _ => True
  | _, .update _ _ _ _, _ => True
  | ρ, .apply p es, d => ∃ cs, ReadsAll ρ es cs ∧ d = I p cs
  | ρ, .quant q bs e, d => ∃ (truth : List Element → Bool) (b : Bool),
      (∀ cs, Element.Ranges D bs cs → ∃ c, Reads (ρ.bind bs cs) e c ∧ c.Counts (truth cs)) ∧
      (b = true ↔ q.Among (Element.Ranges D bs) fun cs => truth cs = true) ∧ d = .bool b

def ReadsAll : Bindings → List Expr → List Element → Prop
  | _, [], ds => ds = []
  | ρ, e :: es, ds => ∃ c cs, Reads ρ e c ∧ ReadsAll ρ es cs ∧ ds = c :: cs

end

theorem readsAll_iff {ρ : Bindings} {es : List Expr} {ds : List Element} :
    I.ReadsAll D ρ es ds ↔ List.Forall₂ (I.Reads D ρ) es ds := by
  induction es generalizing ds with
  | nil =>
    rw [List.forall₂_nil_left_iff]
    rfl
  | cons e es ih =>
    rw [List.forall₂_cons_left_iff]
    show (∃ c cs, I.Reads D ρ e c ∧ I.ReadsAll D ρ es cs ∧ ds = c :: cs) ↔ _
    simp only [ih]

/-- What the predicates give is a reading of their definitions, whatever the arguments. -/
def Satisfies (ps : Predicates) : Prop :=
  ∀ name p, ps.find? name = some p → ∀ ds, ds.length = p.parameters.length →
    I.Reads D (Bindings.none.bind p.parameters ds) p.body (I name ds)

/-- What the predicates give for arguments of the sorts of the parameters is a reading of their
definitions. -/
def SatisfiesSorted (ps : Predicates) : Prop :=
  ∀ name p, ps.find? name = some p → ∀ ds, Element.Typed p.parameters ds →
    I.Reads D (Bindings.none.bind p.parameters ds) p.body (I name ds)

end Meanings

/-! ## Models -/

namespace Model
variable (M : Model)

theorem counts_toBool (d : Element) : d.Counts (M.toBool d) := by
  rintro a rfl
  exact M.toBool_bool a

theorem reading_unary (op : UnOp) (c : Element) : op.Reading c (op.meaning M c) := by
  cases op with
  | not =>
    rintro a rfl
    rw [UnOp.meaning, toBool_bool]
  | neg =>
    rintro m rfl
    rw [UnOp.meaning, toInt_int]

theorem reading_binary (op : BinOp) (c d : Element) : op.Reading c d (op.meaning M c d) := by
  cases op with
  | add | sub | mul | lt | le | gt | ge =>
    rintro m n rfl rfl
    simp [BinOp.meaning]
  | div | mod =>
    rintro m n rfl rfl hn
    refine ⟨m / n, m % n, (Int.mul_ediv_add_emod m n).symm, Int.emod_nonneg m hn,
      Int.emod_lt m hn, ?_⟩
    simp [BinOp.meaning, hn]
  | eq | ne | iff => exact fun _ => rfl
  | and | or | implies => exact ⟨M.toBool c, M.toBool d, M.counts_toBool c, M.counts_toBool d, rfl⟩

open Classical in
/-- The value in a model is a reading. -/
theorem reads_valueIn (D : Int → Prop) {ρ : Bindings} {σ : Valuation} (h : ρ.Agrees σ) (e : Expr) :
    Meanings.Reads M.pred D ρ e (M.valueIn D σ e) := by
  induction e generalizing ρ σ with
  | bool b | int n => rfl
  | var v => exact fun c hc => h v.name c hc
  | unary op e ih =>
    rw [valueIn_unary]
    exact ⟨_, ih h, M.reading_unary op _⟩
  | binary op l r hl hr =>
    rw [valueIn_binary]
    exact ⟨_, _, hl h, hr h, M.reading_binary op _ _⟩
  | select a i | length a | update a i v l => trivial
  | apply p es ih =>
    rw [valueIn_apply]
    refine ⟨es.map (M.valueIn D σ), (Meanings.readsAll_iff _ D).2 ?_, rfl⟩
    rw [List.forall₂_map_right_iff, List.forall₂_same]
    exact fun e he => ih e he h
  | quant q bs e ih =>
    rw [valueIn_quant]
    exact ⟨fun cs => M.toBool (M.valueIn D (σ.bind bs cs) e), _,
      fun cs _ => ⟨_, ih (h.bind bs cs), M.counts_toBool _⟩,
      by rw [decide_eq_true_iff], rfl⟩

end Model

/-- There is a reading of every expression. -/
theorem Meanings.exists_reads (I : Meanings) (D : Int → Prop) (ρ : Bindings)
    (e : Expr) : ∃ d, I.Reads D ρ e d := by
  let M : Model := { (default : Model) with pred := I }
  have hagrees : ρ.Agrees fun x => (ρ x).getD (.int 0) := fun x d hd => by
    show (ρ x).getD _ = d
    rw [hd, Option.getD_some]
  exact ⟨_, M.reads_valueIn D hagrees e⟩

end Cutpoint
