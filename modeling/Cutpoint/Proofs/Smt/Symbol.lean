import Cutpoint.Proofs.Smt.Encode
import Cutpoint.Proofs.Smt.Term

/-!
# Symbols and operators in terms

* `symbolOf?_symbol`: the symbol that is written for a name is read back as that name;
  `sortOf?_sort` and `mapM_binder?` say the same of sorts and of lists of binders.
* `Interpretation.denote_unaryTerm`, `denote_binaryTerm`, `denote_select`, `denote_store`: the
  operators on terms have the meanings of the operators of expressions, if no binder around them is
  named like a function of the theories.
-/

set_option autoImplicit false

namespace Cutpoint.Smt

/-! ## Atoms -/

/-- A name that has no meaning of its own in terms. -/
def Ordinary (x : String) : Prop := x ∉ keywords ∧ x ∉ theorySymbols

instance (x : String) : Decidable (Ordinary x) := inferInstanceAs (Decidable (_ ∧ _))

theorem symbolOf?_symbol {x s : String} (h : symbol? x = some s) (hx : x ∉ keywords) :
    symbolOf? s = some x ∧ numeral? s = none ∧ quantifier? s = none := by
  rcases symbol?_cases h with ⟨hsimple, rfl⟩ | ⟨hbar, hs⟩
  · obtain ⟨c, cs, hlist, hdigit, hchars, hreserved⟩ := isSimple_eq_true hsimple
    have hc : isSymbolChar c = true := hchars c List.mem_cons_self
    have hbar : c ≠ '|' := by
      rintro rfl
      revert hc
      decide
    refine ⟨?_, ?_, ?_⟩
    · simp [symbolOf?, hlist, hbar, hc, hdigit, hx]
    · simp [numeral?, hlist, hdigit]
    · have hne : s ≠ "forall" ∧ s ≠ "exists" := by
        constructor <;> (rintro rfl; exact hreserved (by decide))
      rw [quantifier?, if_neg hne.1, if_neg hne.2]
  · refine ⟨?_, ?_, ?_⟩
    · simp [symbolOf?, hs]
    · have hdigit : isDigit '|' = false := by decide
      simp [numeral?, hs, hdigit]
    · have hne : s ≠ "forall" ∧ s ≠ "exists" := by
        constructor <;> (rintro rfl; cases hs)
      rw [quantifier?, if_neg hne.1, if_neg hne.2]

theorem numeral?_natText (n : Nat) : numeral? (natText n) = some n := by
  have hall : (natText n).toList.all isDigit = true :=
    List.all_eq_true.2 fun c hc => isDigit_of_mem_natText hc
  have hne : (natText n).toList.isEmpty = false := by simpa using natText_ne_nil n
  rw [numeral?, hall, hne, toList_natText, Nat.ofDigitChars_toDigits (by decide) (by decide)]
  rfl

/-- A length function has a name of its own. -/
theorem lengthName_not_mem {ws : List String} (h : ∀ w ∈ ws, w.toList.take 4 ≠ ['l', 'e', 'n', '.'])
    (t : Ty) : lengthName t ∉ ws := by
  intro hmem
  refine h _ hmem ?_
  rw [toList_lengthName]
  rfl

theorem ordinary_lengthName (t : Ty) : Ordinary (lengthName t) :=
  ⟨lengthName_not_mem (by decide) t, lengthName_not_mem (by decide) t⟩

theorem symbol?_lengthName (t : Ty) : symbol? (lengthName t) = some (lengthName t) := by
  have hchars := symbolChar_sortName t
  have hsimple : isSimple (lengthName t) = true := by
    have hreserved : lengthName t ∉ reserved := lengthName_not_mem (by decide) t
    have hstart : isDigit 'l' = false := by decide
    have hstem : ∀ c ∈ ['l', 'e', 'n', '.'], isSymbolChar c = true := List.all_eq_true.1 (by decide)
    rw [isSimple, toList_lengthName]
    simpa [hstart, hstem, hreserved] using hchars
  rw [symbol?, if_pos hsimple]

theorem sortOf?_sort (t : Ty) : sortOf? (sort t) = some t := by
  induction t with
  | int | bool => rfl
  | array t ih =>
    rw [sort, sortOf?, if_pos ⟨rfl, rfl⟩, ih]
    rfl

theorem mapM_binder? {bs : List Var} {vs : List SExp} (h : binders bs = .ok vs)
    (hbs : ∀ b ∈ bs, Ordinary b.name) : vs.mapM binder? = some bs := by
  induction bs generalizing vs with
  | nil =>
    obtain rfl := Except.ok.inj h
    rfl
  | cons b bs ih =>
    obtain ⟨s, hs, h⟩ := bind_eq_ok.1 h
    obtain ⟨us, hus, h⟩ := bind_eq_ok.1 h
    obtain rfl := Except.ok.inj h
    have hb := symbolOf?_symbol (symbol_eq_ok.1 hs) (hbs b List.mem_cons_self).1
    rw [List.mapM_cons, ih hus fun c hc => hbs c (List.mem_cons_of_mem _ hc), binder?, hb.1,
      sortOf?_sort]
    rfl

/-- The function that a binary operator is written with. That of `ne` is negated. -/
def Op.ofBinary : BinOp → Op
  | .add => plus
  | .sub => minus
  | .mul => times
  | .div => div
  | .mod => mod
  | .lt => lt
  | .le => le
  | .gt => gt
  | .ge => ge
  | .eq => eq
  | .ne => eq
  | .and => and
  | .or => or
  | .implies => implies
  | .iff => eq

theorem binaryTerm_eq {op : BinOp} (h : op ≠ .ne) (t u : SExp) :
    binaryTerm op t u = .app (Op.ofBinary op).word [t, u] := by
  cases op with
  | ne => exact absurd rfl h
  | _ => rfl

variable {I : Interpretation} {M : Model}

theorem Op.value?_ofBinary (hdiv : I.divZero = M.divZero) (hmod : I.modZero = M.modZero)
    {op : BinOp} (hne : op ≠ .ne) {c d : Element} {s : Ty} (hc : c.ty = s)
    (hd : d.ty = s) (hop : op.operand?.getD s = s) :
    (Op.ofBinary op).value? I [c, d] = some (op.meaning M c d) := by
  cases op with
  | ne => exact absurd rfl hne
  | add | sub | mul | div | mod | lt | le | gt | ge =>
    obtain rfl : Ty.int = s := hop
    obtain ⟨m, rfl⟩ := Element.eq_int hc
    obtain ⟨n, rfl⟩ := Element.eq_int hd
    simp [ofBinary, value?, BinOp.meaning, hdiv, hmod]
  | and | or | implies =>
    obtain rfl : Ty.bool = s := hop
    obtain ⟨a, rfl⟩ := Element.eq_bool hc
    obtain ⟨b, rfl⟩ := Element.eq_bool hd
    simp [ofBinary, value?, BinOp.meaning]
  | eq | iff => exact if_pos (hc.trans hd.symm)

namespace Interpretation
variable {ρ : Bindings}

theorem denote_symbol {x s : String} (h : symbol? x = some s) (hx : Ordinary x) :
    I.denote (.atom s) ρ = some ((ρ x).getD (I.symbol x [])) := by
  obtain ⟨hs, hn, -⟩ := symbolOf?_symbol h hx.1
  have hbool : x ≠ "true" ∧ x ≠ "false" := by
    constructor <;> (rintro rfl; exact hx.2 (by decide))
  show I.atom s ρ = _
  rw [atom, hn, hs, Option.bind_some, constant, if_neg hbool.1, if_neg hbool.2,
    if_neg (by simpa using hx.2)]
  cases ρ x <;> rfl

theorem denote_call {x s : String} {ts : List SExp} {ds : List Element} (h : symbol? x = some s)
    (hx : Ordinary x) (hρ : ρ x = none) (hne : ds ≠ [])
    (hts : List.Forall₂ (fun t d => I.denote t ρ = some d) ts ds) :
    I.denote (.app s ts) ρ = some (I.symbol x ds) := by
  obtain ⟨hs, -, hq⟩ := symbolOf?_symbol h hx.1
  rw [denote_app hq hs hts, call?, hρ, if_neg (by simpa using hne), if_neg (by simpa using hx.2)]

theorem denote_boolText (htheory : ∀ x ∈ theorySymbols, ρ x = none)
    (b : Bool) : I.denote (.atom (boolText b)) ρ = some (.bool b) := by
  have hb : boolText b ∈ theorySymbols ∧ numeral? (boolText b) = none ∧
      symbolOf? (boolText b) = some (boolText b) := by
    cases b <;> decide
  show I.atom (boolText b) ρ = _
  rw [atom, hb.2.1, hb.2.2, Option.bind_some, htheory _ hb.1]
  cases b <;> rfl

/-! ## Operators -/

section Operators
variable (hρ : ∀ op : Op, ρ op.word = none)
include hρ

theorem denote_intTerm (n : Int) : I.denote (intTerm n) ρ = some (.int n) := by
  have hatom : ∀ m : Nat, I.denote (.atom (natText m)) ρ = some (.int m) := by
    intro m
    show I.atom (natText m) ρ = _
    rw [atom, numeral?_natText]
  cases n with
  | ofNat m => exact hatom m
  | negSucc m =>
    have hminus := denote_op (hρ .minus) (List.cons_ne_nil _ _) (.cons (hatom (m + 1)) .nil)
    exact hminus

theorem denote_unaryTerm {op : UnOp} {t : SExp} {c : Element} (ht : I.denote t ρ = some c)
    (hc : c.ty = op.operand) : I.denote (unaryTerm op t) ρ = some (op.meaning M c) := by
  cases op with
  | not =>
    obtain ⟨b, rfl⟩ := Element.eq_bool hc
    rw [UnOp.meaning, M.toBool_bool]
    have hnot := denote_op (hρ .not) (List.cons_ne_nil _ _) (.cons ht .nil)
    exact hnot
  | neg =>
    obtain ⟨n, rfl⟩ := Element.eq_int hc
    rw [UnOp.meaning, M.toInt_int]
    have hminus := denote_op (hρ .minus) (List.cons_ne_nil _ _) (.cons ht .nil)
    exact hminus

theorem denote_two (op : Op) {t u : SExp} {c d : Element} (ht : I.denote t ρ = some c)
    (hu : I.denote u ρ = some d) : I.denote (.app op.word [t, u]) ρ = op.value? I [c, d] :=
  denote_op (hρ op) (List.cons_ne_nil _ _) (.cons ht (.cons hu .nil))

theorem denote_binaryTerm (hdiv : I.divZero = M.divZero) (hmod : I.modZero = M.modZero) {op : BinOp}
    {t u : SExp} {c d : Element} {s : Ty} (ht : I.denote t ρ = some c) (hu : I.denote u ρ = some d)
    (hc : c.ty = s) (hd : d.ty = s) (hop : op.operand?.getD s = s) :
    I.denote (binaryTerm op t u) ρ = some (op.meaning M c d) := by
  by_cases hne : op = .ne
  · subst hne
    have heq : I.denote (.app "=" [t, u]) ρ = some (BinOp.eq.meaning M c d) :=
      (denote_two hρ .eq ht hu).trans
        (Op.value?_ofBinary hdiv hmod (show BinOp.eq ≠ .ne from nofun) hc hd rfl)
    have hnot : I.denote (.app "not" [.app "=" [t, u]]) ρ =
        some (UnOp.not.meaning M (BinOp.eq.meaning M c d)) :=
      denote_unaryTerm hρ heq (show _ = UnOp.not.operand from rfl)
    refine hnot.trans (congrArg some ?_)
    by_cases hcd : c = d <;> simp [UnOp.meaning, BinOp.meaning, hcd]
  · rw [binaryTerm_eq hne, denote_two hρ _ ht hu]
    exact Op.value?_ofBinary hdiv hmod hne hc hd hop

theorem denote_select {t u : SExp} {c d : Element} {s : Ty} (ht : I.denote t ρ = some c)
    (hu : I.denote u ρ = some d) (hc : c.ty = .array s) (hd : d.ty = .int) :
    I.denote (.app "select" [t, u]) ρ = some (M.select c d) := by
  obtain ⟨f, rfl⟩ := Element.eq_array hc
  obtain ⟨n, rfl⟩ := Element.eq_int hd
  rw [M.select_array]
  exact denote_two hρ .select ht hu

theorem denote_store {t u w : SExp} {c i d : Element} (ht : I.denote t ρ = some c)
    (hu : I.denote u ρ = some i) (hw : I.denote w ρ = some d) (hc : c.ty = .array d.ty)
    (hi : i.ty = .int) : I.denote (.app "store" [t, u, w]) ρ = some (M.store c i d) := by
  obtain ⟨f, rfl⟩ := Element.eq_array hc
  obtain ⟨n, rfl⟩ := Element.eq_int hi
  have happ := denote_op (hρ .store) (List.cons_ne_nil _ _) (.cons ht (.cons hu (.cons hw .nil)))
  rw [M.store_array]
  exact happ.trans (dif_pos rfl)

end Operators

end Interpretation

end Cutpoint.Smt
