import Cutpoint.Proofs.Smt.Symbol
import Cutpoint.Proofs.Solver.Reach

/-!
# Terms have the values of their expressions

A term is read with one interpretation for all of its symbols, while expressions keep variables,
predicates and lengths apart. The two have the same value where the names are `Apart`.

* `Interpretation.denote_of_encodes`: the invariant of the encoding, in the scope of binders.
* `term_faithful`: the term of an expression is one s-expression, and it has the value of the
  expression.
* `Captured.term_captured`: a binder with the name of a predicate changes the meaning.
-/

set_option autoImplicit false

namespace Cutpoint

/-! ## Names -/

namespace Expr

mutual

/-- All names are ordinary, and the binders of one quantifier have different names. -/
def Speakable : Expr → Prop
  | bool _ | int _ => True
  | var v => Smt.Ordinary v.name
  | unary _ e => e.Speakable
  | binary _ l r => l.Speakable ∧ r.Speakable
  | select a i => a.Speakable ∧ i.Speakable
  | length a => a.Speakable
  | update a i v l => a.Speakable ∧ i.Speakable ∧ v.Speakable ∧ l.Speakable
  | apply p es => Smt.Ordinary p ∧ SpeakableAll es
  | quant _ bs e => (∀ b ∈ bs, Smt.Ordinary b.name) ∧ (Var.names bs).Nodup ∧ e.Speakable

def SpeakableAll : List Expr → Prop
  | [] => True
  | e :: es => e.Speakable ∧ SpeakableAll es

end

mutual

/-- No predicate and no length function is applied below a binder of its name. -/
def Uncaptured (bound : List String) : Expr → Prop
  | bool _ | int _ | var _ => True
  | unary _ e => e.Uncaptured bound
  | binary _ l r => l.Uncaptured bound ∧ r.Uncaptured bound
  | select a i => a.Uncaptured bound ∧ i.Uncaptured bound
  | length (update _ _ _ l) => l.Uncaptured bound
  | length a => (∀ t, a.type? = some (.array t) → Smt.lengthName t ∉ bound) ∧ a.Uncaptured bound
  | update a i v _ => a.Uncaptured bound ∧ i.Uncaptured bound ∧ v.Uncaptured bound
  | apply p es => p ∉ bound ∧ UncapturedAll bound es
  | quant _ bs e => e.Uncaptured (Var.names bs ++ bound)

def UncapturedAll (bound : List String) : List Expr → Prop
  | [] => True
  | e :: es => e.Uncaptured bound ∧ UncapturedAll bound es

end

theorem speakableAll_iff {es : List Expr} : SpeakableAll es ↔ ∀ e ∈ es, e.Speakable := by
  induction es with
  | nil => simp [SpeakableAll]
  | cons e es ih => simp [SpeakableAll, ih]

theorem uncapturedAll_iff {bound : List String} {es : List Expr} :
    UncapturedAll bound es ↔ ∀ e ∈ es, e.Uncaptured bound := by
  induction es with
  | nil => simp [UncapturedAll]
  | cons e es ih => simp [UncapturedAll, ih]

theorem uncaptured_length {bound : List String} {a : Expr}
    (hsteady : a.Steady) (h : (length a).Uncaptured bound) :
    (∀ t, a.type? = some (.array t) → Smt.lengthName t ∉ bound) ∧ a.Uncaptured bound := by
  cases a with
  | update b i v l => exact absurd rfl (hsteady b i v l)
  | _ => exact h

/-- What is shown of an expression has no other free variables. -/
theorem mem_free_of_mem_free_shown {e : Expr} {v : Var} (h : v ∈ e.shown.free) : v ∈ e.free := by
  induction e using Expr.inductShown with
  | bool b | int n | var w => exact h
  | unary op e ih => exact ih h
  | binary op l r hl hr =>
    rw [mem_free_binary]
    exact ((mem_free_binary op l.shown r.shown).1 h).imp hl hr
  | select a i ha hi =>
    rw [mem_free_select]
    exact ((mem_free_select a.shown i.shown).1 h).imp ha hi
  | lengthUpdate a i w l hl => simp [hl h]
  | length a hsteady ha =>
    rw [shown_length hsteady] at h
    exact ha h
  | update a i w l ha hi hw =>
    have hparts := (mem_free_update a.shown i.shown w.shown (int 0)).1 h
    simp only [mem_free_int, or_false] at hparts
    rw [mem_free_update]
    exact hparts.imp ha (Or.imp hi fun h => .inl (hw h))
  | apply p es ih =>
    obtain ⟨f, hf, hv⟩ := (mem_free_apply p (shownAll es)).1 h
    obtain ⟨e, he, rfl⟩ := mem_shownAll.1 hf
    exact (mem_free_apply p es).2 ⟨e, he, ih e he hv⟩
  | quant q bs e ih =>
    obtain ⟨hv, hn⟩ := (mem_free_quant q bs e.shown).1 h
    exact (mem_free_quant q bs e).2 ⟨ih hv, hn⟩

end Expr

theorem Quantifier.among_nil {q : Quantifier} {P : List Element → Prop} :
    q.Among (Element.Typed []) P ↔ P [] := by
  have hnil : ∀ ds, Element.Typed [] ds ↔ ds = [] := fun ds => List.map_eq_nil_iff
  cases q <;> simp [Among, hnil]

open Classical in
theorem Model.value_quant_nil (M : Model) {σ : Valuation} {q : Quantifier} {e : Expr} {b : Bool}
    (hb : M.value (σ.bind [] []) e = .bool b) : M.value σ (.quant q [] e) = .bool b := by
  rw [value_quant]
  congr 1
  rw [Bool.eq_iff_iff, decide_eq_true_iff, Quantifier.among_nil, hb, M.toBool_bool]

namespace Smt

/-! ## Expressions -/

namespace Interpretation
variable {I : Interpretation} {M : Model} {ρ : Bindings}

/-- The interpretation of symbols is that of the model, and its constants have the values of the
free variables. -/
structure Agrees (I : Interpretation) (M : Model) (σ : Valuation) (e : Expr) : Prop where
  const : ∀ v ∈ e.shown.free, I.symbol v.name [] = σ v.name
  pred : ∀ p ∈ e.shown.applied, ∀ ds, I.symbol p ds = M.pred p ds
  length : ∀ t d, d.ty = .array t → I.symbol (lengthName t) [d] = .int (M.length d)
  divZero : I.divZero = M.divZero
  modZero : I.modZero = M.modZero

/-- The same below binders of the names `bound`, whose values are in the scope. -/
structure AgreesIn (I : Interpretation) (M : Model) (bound : List String) (ρ : Bindings)
    (σ : Valuation) (e : Expr) : Prop where
  inside : ∀ x ∈ bound, ρ x = some (σ x)
  outside : ∀ x, x ∉ bound → ρ x = none
  ordinary : ∀ x ∈ bound, Ordinary x
  fits : σ.Fits e.shown.free
  const : ∀ v ∈ e.shown.free, v.name ∉ bound → I.symbol v.name [] = σ v.name
  pred : ∀ p ∈ e.shown.applied, ∀ ds, I.symbol p ds = M.pred p ds
  length : ∀ t d, d.ty = .array t → I.symbol (lengthName t) [d] = .int (M.length d)
  divZero : I.divZero = M.divZero
  modZero : I.modZero = M.modZero

namespace AgreesIn
variable {bound : List String} {σ : Valuation} {e f : Expr}

theorem mono (h : AgreesIn I M bound ρ σ e) (hfree : ∀ v ∈ f.shown.free, v ∈ e.shown.free)
    (happlied : ∀ p ∈ f.shown.applied, p ∈ e.shown.applied) : AgreesIn I M bound ρ σ f where
  inside := h.inside
  outside := h.outside
  ordinary := h.ordinary
  fits := h.fits.mono hfree
  const v hv := h.const v (hfree v hv)
  pred p hp := h.pred p (happlied p hp)
  length := h.length
  divZero := h.divZero
  modZero := h.modZero

/-- No binder is named like a function of the theories. -/
theorem theory_free (h : AgreesIn I M bound ρ σ e) {x : String} (hx : x ∈ theorySymbols) :
    ρ x = none :=
  h.outside x fun hbound => (h.ordinary x hbound).2 hx

theorem word_free (h : AgreesIn I M bound ρ σ e) (op : Op) : ρ op.word = none := by
  refine h.theory_free ?_
  cases op <;> decide

theorem operand {op : UnOp} (h : AgreesIn I M bound ρ σ (.unary op e)) : AgreesIn I M bound ρ σ e :=
  h.mono (fun _ hv => hv) fun _ hp => hp

theorem left {op : BinOp} (h : AgreesIn I M bound ρ σ (.binary op e f)) :
    AgreesIn I M bound ρ σ e :=
  h.mono (fun _ hv => (Expr.mem_free_binary op _ _).2 (.inl hv)) fun _ hp =>
    List.mem_append_left _ hp

theorem right {op : BinOp} (h : AgreesIn I M bound ρ σ (.binary op e f)) :
    AgreesIn I M bound ρ σ f :=
  h.mono (fun _ hv => (Expr.mem_free_binary op _ _).2 (.inr hv)) fun _ hp =>
    List.mem_append_right _ hp

theorem array (h : AgreesIn I M bound ρ σ (.select e f)) : AgreesIn I M bound ρ σ e :=
  h.mono (fun _ hv => (Expr.mem_free_select _ _).2 (.inl hv)) fun _ hp => List.mem_append_left _ hp

theorem index (h : AgreesIn I M bound ρ σ (.select e f)) : AgreesIn I M bound ρ σ f :=
  h.mono (fun _ hv => (Expr.mem_free_select _ _).2 (.inr hv)) fun _ hp => List.mem_append_right _ hp

theorem carried {a i v : Expr} (h : AgreesIn I M bound ρ σ (.length (.update a i v e))) :
    AgreesIn I M bound ρ σ e :=
  h.mono (fun _ hv => hv) fun _ hp => hp

theorem measured (hsteady : e.Steady) (h : AgreesIn I M bound ρ σ (.length e)) :
    AgreesIn I M bound ρ σ e := by
  have hshown := Expr.shown_length hsteady
  exact h.mono (fun v hv => by rw [hshown]; exact hv) fun p hp => by rw [hshown]; exact hp

/-- The length that an update carries is not part of its term. -/
theorem updated {a i v l : Expr} (h : AgreesIn I M bound ρ σ (.update a i v l)) :
    AgreesIn I M bound ρ σ a ∧ AgreesIn I M bound ρ σ i ∧ AgreesIn I M bound ρ σ v := by
  refine ⟨h.mono ?_ ?_, h.mono ?_ ?_, h.mono ?_ ?_⟩ <;>
    (intro x hx; simp [Expr.shown, Expr.applied, hx])

theorem arg {p : String} {es : List Expr} (h : AgreesIn I M bound ρ σ (.apply p es))
    (he : e ∈ es) : AgreesIn I M bound ρ σ e := by
  have hshown : e.shown ∈ Expr.shownAll es := Expr.mem_shownAll.2 ⟨e, he, rfl⟩
  exact h.mono (fun v hv => (Expr.mem_free_apply p _).2 ⟨e.shown, hshown, hv⟩)
    fun q hq => List.mem_cons_of_mem _ (Expr.mem_allApplied.2 ⟨e.shown, hshown, hq⟩)

theorem body {q : Quantifier} {bs : List Var} (h : AgreesIn I M bound ρ σ (.quant q bs e))
    (hbs : ∀ b ∈ bs, Ordinary b.name) (hscoped : (Expr.quant q bs e).Scoped)
    {ds : List Element} (hds : Element.Typed bs ds) :
    AgreesIn I M (Var.names bs ++ bound) (ρ.bind bs ds) (σ.bind bs ds) e where
  inside x hx := by
    by_cases hn : x ∈ Var.names bs
    · obtain ⟨d, hd⟩ :=
        Option.isSome_iff_exists.1 (Var.lookup_isSome (Nat.le_of_eq hds.length.symm) hn)
      rw [Bindings.bind_apply, NameMap.bind, hd]
      rfl
    · rw [Bindings.bind_apply, NameMap.bind, Var.lookup_eq_none ds hn]
      exact h.inside x ((List.mem_append.1 hx).resolve_left hn)
  outside x hx := by
    obtain ⟨hn, hx⟩ := not_or.1 (mt List.mem_append.2 hx)
    rw [Bindings.bind_apply, Var.lookup_eq_none ds hn]
    exact h.outside x hx
  ordinary x hx := by
    rcases List.mem_append.1 hx with hx | hx
    · obtain ⟨b, hb, rfl⟩ := mem_names.1 hx
      exact hbs b hb
    · exact h.ordinary x hx
  fits :=
    NameMap.Fits.bind hds.forall₂ (fun v hv => hscoped.2 v (Expr.mem_free_of_mem_free_shown hv))
      fun v hv hn => h.fits v ((Expr.mem_free_quant q bs e.shown).2 ⟨hv, hn⟩)
  const v hv hn := by
    obtain ⟨hn, hbound⟩ := not_or.1 (mt List.mem_append.2 hn)
    rw [NameMap.bind_of_not_mem hn]
    exact h.const v ((Expr.mem_free_quant q bs e.shown).2 ⟨hv, hn⟩) hbound
  pred := h.pred
  length := h.length
  divZero := h.divZero
  modZero := h.modZero

end AgreesIn

open Classical in
/-- A quantifier has the value of the expression if its body has, which is true or false for all
values of the binders. -/
theorem denote_quantifier {q : Quantifier} {bs : List Var} {e : Expr} {vs : List SExp} {u : SExp}
    {σ : Valuation} (hne : bs ≠ []) (hnodup : (Var.names bs).Nodup)
    (hvs : vs.mapM binder? = some bs) (hbody : ∀ ds, Element.Typed bs ds →
      ∃ b, I.denote u (ρ.bind bs ds) = some (.bool b) ∧ M.value (σ.bind bs ds) e = .bool b) :
    I.denote (.app q.word [.list vs, u]) ρ = some (M.value σ (.quant q bs e)) := by
  have hword : quantifier? q.word = some q := by
    cases q <;> rfl
  have hbool : ∀ ds, Element.Typed bs ds → ∃ b, I.denote u (ρ.bind bs ds) = some (.bool b) :=
      fun ds hds =>
    (hbody ds hds).imp fun b hb => hb.1
  rw [Model.value_quant, denote_quant hword hvs, quantify, if_pos ⟨hne, hnodup, hbool⟩]
  congr 2
  refine decide_eq_decide.2 (Quantifier.among_congr fun ds hds => ?_)
  obtain ⟨b, hdenote, hb⟩ := hbody ds hds
  rw [hdenote, hb]
  simp

/-- The term of a well-sorted expression has the value of the expression. -/
theorem denote_of_encodes {S : Signature} (hM : M.Sorted S) {e : Expr} {t : SExp} {ty : Ty}
    {bound : List String} {σ : Valuation} (ht : Encodes e t) (hsort : e.sort? S = some ty)
    (hscoped : e.Scoped) (hspeak : e.Speakable) (hfree : e.Uncaptured bound)
    (h : AgreesIn I M bound ρ σ e) : I.denote t ρ = some (M.value σ e) := by
  induction e using Expr.inductShown generalizing t ty bound ρ σ with
  | bool b =>
    cases ht
    exact denote_boolText (fun _ => h.theory_free) b
  | int n =>
    cases ht
    exact denote_intTerm h.word_free n
  | var v =>
    cases ht with
    | var hs =>
      rw [denote_symbol hs hspeak]
      by_cases hv : v.name ∈ bound
      · rw [h.inside _ hv]
        rfl
      · rw [h.outside _ hv, Option.getD_none, h.const v (Expr.mem_free_var.2 rfl) hv]
        rfl
  | unary op e ih =>
    cases ht with
    | unary he =>
      obtain ⟨hsort, -⟩ := Expr.sort?_unary_eq_some hsort
      rw [Model.value_unary]
      exact denote_unaryTerm h.word_free (ih he hsort hscoped hspeak hfree h.operand)
        (M.value_ty hM hsort h.operand.fits)
  | binary op l r hl hr =>
    cases ht with
    | binary hel her =>
      obtain ⟨s, hsl, hsr, hop, -⟩ := Expr.sort?_binary_eq_some hsort
      rw [Model.value_binary]
      exact denote_binaryTerm h.word_free h.divZero h.modZero (hl hel hsl hscoped.1 hspeak.1 hfree.1
        h.left) (hr her hsr hscoped.2 hspeak.2 hfree.2 h.right) (M.value_ty hM hsl h.left.fits)
        (M.value_ty hM hsr h.right.fits) hop
  | select a i ha hi =>
    cases ht with
    | select hea hei =>
      obtain ⟨hsa, hsi⟩ := Expr.sort?_select_eq_some hsort
      rw [Model.value_select]
      exact denote_select h.word_free (ha hea hsa hscoped.1 hspeak.1 hfree.1 h.array)
        (hi hei hsi hscoped.2 hspeak.2 hfree.2 h.index) (M.value_ty hM hsa h.array.fits)
        (M.value_ty hM hsi h.index.fits)
  | lengthUpdate a i v l hl =>
    cases ht with
    | length hsteady => exact absurd rfl (hsteady a i v l)
    | lengthUpdate hel =>
      obtain ⟨⟨u, hu⟩, -⟩ := Expr.sort?_length_eq_some hsort
      obtain ⟨w, -, -, -, -, hsl⟩ := Expr.sort?_update_eq_some hu
      rw [Model.value_length_update]
      exact hl hel hsl hscoped.2.2.2 hspeak.2.2.2 hfree h.carried
  | length a hsteady ha =>
    cases ht with
    | lengthUpdate => exact absurd rfl (hsteady _ _ _ _)
    | @length _ u _ _ hty hea =>
      obtain ⟨⟨w, hw⟩, -⟩ := Expr.sort?_length_eq_some hsort
      obtain rfl : w = u := by
        have hroot := (Expr.type?_of_sort? hw).symm.trans hty
        simpa using hroot
      obtain ⟨hname, hfree⟩ := Expr.uncaptured_length hsteady hfree
      have hin := h.measured hsteady
      have hvalue := ha hea hw hscoped hspeak hfree hin
      rw [Model.value_length hsteady, ← h.length w _ (M.value_ty hM hw hin.fits)]
      exact denote_call (symbol?_lengthName w) (ordinary_lengthName w) (h.outside _ (hname w hty))
        (List.cons_ne_nil _ _) (.cons hvalue .nil)
  | update a i v l ha hi hv =>
    cases ht with
    | update hea hei hev =>
      obtain ⟨u, -, hsa, hsi, hsv, -⟩ := Expr.sort?_update_eq_some hsort
      obtain ⟨hina, hini, hinv⟩ := h.updated
      rw [Model.value_update]
      refine denote_store h.word_free (ha hea hsa hscoped.1 hspeak.1 hfree.1 hina)
        (hi hei hsi hscoped.2.1 hspeak.2.1 hfree.2.1 hini)
        (hv hev hsv hscoped.2.2.1 hspeak.2.2.1 hfree.2.2 hinv) ?_ (M.value_ty hM hsi hini.fits)
      rw [M.value_ty hM hsa hina.fits, M.value_ty hM hsv hinv.fits]
  | apply p es ih =>
    cases ht with
    | @apply _ s _ ts hs hes =>
      have hvalue : ∀ e ∈ es, ∀ t, Encodes e t → I.denote t ρ = some (M.value σ e) := by
        intro e he t ht
        obtain ⟨u, hu⟩ := Expr.exists_sort?_of_mem hsort he
        exact ih e he ht hu (Expr.scopedAll_iff.1 hscoped e he)
          (Expr.speakableAll_iff.1 hspeak.2 e he) (Expr.uncapturedAll_iff.1 hfree.2 e he) (h.arg he)
      have hboth := (List.forall₂_and_left es ts).2 ⟨hvalue, hes⟩
      have hvalues : List.Forall₂ (fun t d => I.denote t ρ = some d) ts (es.map (M.value σ)) :=
        List.forall₂_map_right_iff.2 (hboth.imp fun e t ht => ht.1 t ht.2).flip
      have hp : ρ p = none := h.outside p hfree.1
      rw [Model.value_apply, ← h.pred p List.mem_cons_self]
      cases hes with
      | nil =>
        show I.denote (.atom s) ρ = _
        rw [denote_symbol hs hspeak.1, hp]
        rfl
      | cons _ _ => exact denote_call hs hspeak.1 hp (List.cons_ne_nil _ _) hvalues
  | quant q bs e ih =>
    obtain ⟨hbody, -⟩ := Expr.sort?_quant_eq_some hsort
    obtain ⟨hbs, hnodup, hspeak⟩ := hspeak
    have hinst : ∀ u, Encodes e u → ∀ ds, Element.Typed bs ds →
        ∃ b, I.denote u (ρ.bind bs ds) = some (.bool b) ∧ M.value (σ.bind bs ds) e = .bool b := by
      intro u hu ds hds
      have hin := h.body hbs hscoped hds
      obtain ⟨b, hb⟩ := Element.eq_bool (M.value_ty hM hbody hin.fits)
      exact ⟨b, hb ▸ ih hu hbody hscoped.1 hspeak hfree hin, hb⟩
    cases ht with
    | quantNil he =>
      obtain ⟨b, hdenote, hb⟩ := hinst t he [] rfl
      rw [M.value_quant_nil hb]
      exact hdenote
    | quant hne hvs he => exact denote_quantifier hne hnodup (mapM_binder? hvs hbs) (hinst _ he)

end Interpretation

/-! ## Terms -/

/-- Variables, predicates and length functions do not get in each other's way: below binders, and
among the symbols of the whole term. -/
structure Apart (e : Expr) : Prop where
  uncaptured : e.Uncaptured []
  vars : ∀ v ∈ e.shown.free, v.name ∉ e.shown.applied
  lengths : ∀ p ∈ e.shown.applied, ∀ t, p ≠ lengthName t

open Classical in
/-- Where names are apart, one interpretation can give all symbols the values that they have in a
model. -/
theorem exists_agrees {e : Expr} (h : Apart e) (M : Model) (σ : Valuation) :
    ∃ I : Interpretation, I.Agrees M σ e := by
  refine ⟨⟨fun f ds => if ds = [] ∧ f ∈ Var.names e.shown.free then σ f
    else if f ∈ e.shown.applied then M.pred f ds else .int (M.length (ds.headD (.int 0))),
    M.divZero, M.modZero⟩, ?_, ?_, ?_, rfl, rfl⟩
  · intro v hv
    exact if_pos ⟨rfl, name_mem_names hv⟩
  · intro p hp ds
    have hvar : p ∉ Var.names e.shown.free := by
      intro hmem
      obtain ⟨v, hv, rfl⟩ := mem_names.1 hmem
      exact h.vars v hv hp
    dsimp only
    rw [if_neg fun hboth => hvar hboth.2, if_pos hp]
  · intro t d _
    have hname : lengthName t ∉ e.shown.applied := fun hmem => h.lengths _ hmem t rfl
    dsimp only
    rw [if_neg fun hboth => List.cons_ne_nil _ _ hboth.1, if_neg hname]
    rfl

theorem encodes_of_term {e : Expr} {t : SExp} (h : term e = .ok t) : Encodes e t := by
  obtain ⟨⟨u, d⟩, hrun, h⟩ := bind_eq_ok.1 h
  obtain rfl := Except.ok.inj h
  exact encodes_of_encode hrun

/-- The term of a well-sorted expression whose names are apart is read as one s-expression, and it
has the value of the expression whatever the free variables, the predicates, the length functions
and the divisions by zero are taken to be. -/
theorem term_faithful {S : Signature} {e : Expr} {t : SExp} (hsorted : e.WellSorted S)
    (hspeak : e.Speakable) (hapart : Apart e) (ht : term e = .ok t) :
    SExp.parse t.render = .ok [t] ∧
    ∀ (M : Model) (σ : Valuation), M.Sorted S → σ.Fits e.shown.free →
      (∃ I : Interpretation, I.Agrees M σ e) ∧
      ∀ I : Interpretation, I.Agrees M σ e → I.denote t .none = some (M.value σ e) := by
  have hencodes := encodes_of_term ht
  refine ⟨SExp.parse_render hencodes.readable,
    fun M σ hM hσ => ⟨exists_agrees hapart M σ, fun I hI => ?_⟩⟩
  obtain ⟨⟨ty, hsort⟩, hscoped⟩ := hsorted
  refine Interpretation.denote_of_encodes hM hencodes hsort hscoped hspeak hapart.uncaptured ?_
  exact {
    inside := fun x hx => absurd hx List.not_mem_nil
    outside := fun x _ => rfl
    ordinary := fun x hx => absurd hx List.not_mem_nil
    fits := hσ
    const := fun v hv _ => hI.const v hv
    pred := hI.pred
    length := hI.length
    divZero := hI.divZero
    modZero := hI.modZero }

namespace Ranged

def array : Expr := .var ⟨"a", .array .int⟩

/-- `(forall i :: a[i] >= -9223372036854775808) && (sorted(a) ==> len(a[0 := 1]) != the size /
0)` -/
def formula : Expr :=
  .and (.quant .all [⟨"i", .int⟩] (.binary .ge (.select array (.var ⟨"i", .int⟩))
    (.int (-9223372036854775808)))) (.implies (.apply "sorted" [array])
      (.binary .ne (.length (.update array (.int 0) (.int 1) (.length array)))
      (.binary .div (.var ⟨"the size", .int⟩) (.int 0))))

def signature : Signature := fun p => if p = "sorted" then some [.array .int] else none

def written : SExp :=
  .app "and" [.app "forall" [.list [.list [.atom "i", .atom "Int"]],
      .app ">=" [.app "select" [.atom "a", .atom "i"], .app "-" [.atom "9223372036854775808"]]],
    .app "=>" [.app "sorted" [.atom "a"],
      .app "not" [.app "=" [.app "len.int" [.atom "a"],
      .app "div" [.atom "|the size|", .atom "0"]]]]]

theorem formula_wellSorted : formula.WellSorted signature :=
  ⟨⟨.bool, rfl⟩, OneType.scoped (by decide)⟩

theorem formula_speakable : formula.Speakable := by
  have harray : array.Speakable := show Ordinary "a" by decide
  have hindex : Ordinary "i" := by decide
  have hsize : Ordinary "the size" := by decide
  exact ⟨⟨by decide, by decide, ⟨harray, hindex⟩, trivial⟩, ⟨by decide, harray, trivial⟩,
    ⟨harray, trivial, trivial, harray⟩, hsize, trivial⟩

theorem formula_apart : Apart formula where
  uncaptured := ⟨⟨⟨trivial, trivial⟩, trivial⟩, ⟨List.not_mem_nil, trivial, trivial⟩,
    ⟨fun _ _ => List.not_mem_nil, trivial⟩, trivial, trivial⟩
  vars := by decide
  lengths p hp t := by
    rintro rfl
    exact lengthName_not_mem (by decide) t hp

theorem term_faithful_ranged :
    formula.WellSorted signature ∧ formula.Speakable ∧ Apart formula ∧ term formula = .ok written ∧
    (default : Model).Sorted signature ∧ SExp.parse written.render = .ok [written] ∧
    ∀ σ : Valuation, σ.Fits formula.shown.free →
      ∃ I : Interpretation, I.denote written .none = some ((default : Model).value σ formula) := by
  have hterm : term formula = .ok written := rfl
  have hM : (default : Model).Sorted signature := fun _ _ _ => rfl
  have hfaithful := term_faithful formula_wellSorted formula_speakable formula_apart hterm
  refine ⟨formula_wellSorted, formula_speakable, formula_apart, hterm, hM, hfaithful.1,
    fun σ hσ => ?_⟩
  obtain ⟨⟨I, hI⟩, hdenote⟩ := hfaithful.2 default σ hM hσ
  exact ⟨I, hdenote I hI⟩

end Ranged

/-! ## Captured names -/

namespace Captured

def p : Var := ⟨"p", .bool⟩

/-- `forall p: bool :: p() || !p`, where `p()` is a predicate without arguments. -/
def formula : Expr := .quant .all [p] (.or (.apply "p" []) (.unary .not (.var p)))

def signature : Signature := fun name => if name = "p" then some [] else none

def body : SExp := .app "or" [.atom "p", .app "not" [.atom "p"]]

def written : SExp := .app "forall" [.list [.list [.atom "p", .atom "Bool"]], body]

theorem exists_of_typed {ds : List Element} (h : Element.Typed [p] ds) : ∃ b, ds = [.bool b] := by
  obtain ⟨d, rfl⟩ := List.length_eq_one_iff.1 h.length
  obtain ⟨b, rfl⟩ := Element.eq_bool (List.singleton_inj.1 h)
  exact ⟨b, rfl⟩

/-- Both atoms are the binder. -/
theorem denote_body (I : Interpretation) (b : Bool) :
    I.denote body (Bindings.none.bind [p] [.bool b]) = some (.bool true) := by
  have hfree : ∀ op : Op, Bindings.none.bind [p] [.bool b] op.word = none := by
    intro op
    cases op <;> rfl
  have hatom : I.denote (.atom "p") (Bindings.none.bind [p] [.bool b]) = some (.bool b) := rfl
  have hnot : I.denote (.app "not" [.atom "p"]) (Bindings.none.bind [p] [.bool b]) =
      some (.bool (!b)) :=
    Interpretation.denote_op (hfree .not) (List.cons_ne_nil _ _) (.cons hatom .nil)
  have hor :=
    Interpretation.denote_op (hfree .or) (List.cons_ne_nil _ _) (.cons hatom (.cons hnot .nil))
  refine Eq.trans hor ?_
  cases b <;> rfl

open Classical in
theorem denote_written (I : Interpretation) : I.denote written .none = some (.bool true) := by
  have hbody : ∀ ds, Element.Typed [p] ds →
      I.denote body (Bindings.none.bind [p] ds) = some (.bool true) := by
    intro ds hds
    obtain ⟨b, rfl⟩ := exists_of_typed hds
    exact denote_body I b
  have hquant : I.denote written .none = Interpretation.quantify .all [p] fun ds =>
      I.denote body (Bindings.none.bind [p] ds) :=
    Interpretation.denote_quant rfl rfl
  rw [hquant, Interpretation.quantify,
    if_pos ⟨List.cons_ne_nil _ _, by decide, fun ds hds => ⟨true, hbody ds hds⟩⟩]
  exact congrArg (some ∘ Element.bool) (decide_eq_true hbody)

open Classical in
/-- The predicate is false and the binder true. -/
theorem value_formula (σ : Valuation) : (default : Model).value σ formula = .bool false := by
  rw [formula, Model.value_quant]
  refine congrArg Element.bool (decide_eq_false fun hall => ?_)
  exact Bool.false_ne_true (hall [.bool true] rfl)

/-- Where a binder has the name of a predicate below it, the term speaks of the binder: it is true
even if the formula is false. -/
theorem term_captured :
    formula.WellSorted signature ∧ formula.Speakable ∧ term formula = .ok written ∧
    (default : Model).Sorted signature ∧
    (∀ I : Interpretation, I.denote written .none = some (.bool true)) ∧
    ∀ σ : Valuation, (default : Model).value σ formula = .bool false := by
  have hsorted : formula.WellSorted signature := ⟨⟨.bool, rfl⟩, OneType.scoped (by decide)⟩
  have hspeak : formula.Speakable :=
    ⟨by decide, by decide, ⟨by decide, trivial⟩, show Ordinary "p" by decide⟩
  exact ⟨hsorted, hspeak, rfl, fun _ _ _ => rfl, denote_written, value_formula⟩

end Captured

end Smt

end Cutpoint
