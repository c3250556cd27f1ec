import Mathlib.Data.List.Forall2
import Cutpoint.Proofs.Flow.WellFormed
import Cutpoint.Proofs.Meaning.Sorted
import Cutpoint.Proofs.SExp.Reader
import Cutpoint.Smt.Encode

/-!
# The terms of expressions

* `Smt.Encodes e t`: the term `t` has the form that an expression is written in, whatever is
  declared; `Smt.encodes_of_encode`: the encoder writes such terms;
* `Smt.Encodes.readable`: they can be read.
-/

set_option autoImplicit false

namespace Cutpoint.Smt

/-! ## Runs of the encoder -/

section Runs
variable {α β : Type} {d d' : Decls}

theorem run_bind_eq_ok {x : Encoder α} {f : α → Encoder β} {b : β} :
    (x >>= f).run d = .ok (b, d') ↔ ∃ a d₁, x.run d = .ok (a, d₁) ∧ (f a).run d₁ = .ok (b, d') := by
  rw [StateT.run_bind, bind_eq_ok, Prod.exists]

theorem run_pure_eq_ok {a b : α} : (pure a : Encoder α).run d = .ok (b, d') ↔ a = b ∧ d = d' := by
  rw [StateT.run_pure]
  show Except.ok (a, d) = Except.ok (b, d') ↔ _
  simp

theorem run_lift_eq_ok {x : Except EncodeError α} {a : α} :
    (liftM x : Encoder α).run d = .ok (a, d') ↔ x = .ok a ∧ d = d' := by
  cases x with
  | error e =>
    simp [liftM, monadLift, MonadLift.monadLift, StateT.lift, StateT.run, bind, Except.bind]
  | ok b =>
    show Except.ok (b, d) = Except.ok (a, d') ↔ _
    simp

end Runs

theorem symbol_eq_ok {x s : String} : symbol x = .ok s ↔ symbol? x = some s := by
  unfold symbol
  split
  · next h => simp [h]
  · next h => simp [h]

/-! ## Forms of terms -/

/-- The form of the term of an expression. -/
inductive Encodes : Expr → SExp → Prop where
  | bool (b : Bool) : Encodes (.bool b) (.atom (boolText b))
  | int (n : Int) : Encodes (.int n) (intTerm n)
  | var {v : Var} {s : String} (hs : symbol? v.name = some s) : Encodes (.var v) (.atom s)
  | unary {op : UnOp} {e : Expr} {t : SExp} (he : Encodes e t) :
      Encodes (.unary op e) (unaryTerm op t)
  | binary {op : BinOp} {l r : Expr} {t u : SExp} (hl : Encodes l t) (hr : Encodes r u) :
    Encodes (.binary op l r) (binaryTerm op t u)
  | select {a i : Expr} {t u : SExp} (ha : Encodes a t) (hi : Encodes i u) :
      Encodes (.select a i) (.app "select" [t, u])
  | lengthUpdate {a i v l : Expr} {t : SExp} (hl : Encodes l t) :
      Encodes (.length (.update a i v l)) t
  | length {a : Expr} {ty : Ty} {t : SExp} (hsteady : a.Steady) (hty : a.type? = some (.array ty))
      (ha : Encodes a t) : Encodes (.length a) (.app (lengthName ty) [t])
  | update {a i v l : Expr} {t u w : SExp} (ha : Encodes a t) (hi : Encodes i u)
      (hv : Encodes v w) : Encodes (.update a i v l) (.app "store" [t, u, w])
  | apply {p s : String} {es : List Expr} {ts : List SExp} (hs : symbol? p = some s)
      (hes : List.Forall₂ Encodes es ts) :
      Encodes (.apply p es) (if ts.isEmpty then .atom s else .app s ts)
  | quantNil {q : Quantifier} {e : Expr} {t : SExp} (he : Encodes e t) : Encodes (.quant q [] e) t
  | quant {q : Quantifier} {bs : List Var} {e : Expr} {vs : List SExp} {t : SExp}
      (hne : bs ≠ []) (hbs : binders bs = .ok vs) (he : Encodes e t) :
      Encodes (.quant q bs e) (.app q.word [.list vs, t])

section Encode
variable {bound : List String} {d d' : Decls} {t : SExp}

theorem encodeVar_eq_ok {v : Var} (h : (encodeVar bound v).run d = .ok (t, d')) :
    ∃ s, symbol? v.name = some s ∧ t = .atom s := by
  obtain ⟨s, d₁, hs, h⟩ := run_bind_eq_ok.1 h
  refine ⟨s, symbol_eq_ok.1 (run_lift_eq_ok.1 hs).1, ?_⟩
  split at h
  · exact (run_pure_eq_ok.1 h).1.symm
  · obtain ⟨decls, d₂, -, h⟩ := run_bind_eq_ok.1 h
    dsimp only at h
    split at h
    · obtain ⟨_, d₃, -, h⟩ := run_bind_eq_ok.1 h
      exact (run_pure_eq_ok.1 h).1.symm
    · split at h
      · exact (run_pure_eq_ok.1 h).1.symm
      · obtain ⟨_, d₃, hthrow, -⟩ := run_bind_eq_ok.1 h
        cases hthrow

theorem encodeLength_eq_ok {a : Expr} {x : Encoder SExp}
    (h : (encodeLength a x).run d = .ok (t, d')) :
    ∃ ty u d₁, a.type? = some (.array ty) ∧
      x.run d = .ok (u, d₁) ∧ t = .app (lengthName ty) [u] := by
  unfold encodeLength at h
  split at h
  · cases h
  · next ty hty =>
    obtain ⟨u, d₁, hu, h⟩ := run_bind_eq_ok.1 h
    obtain ⟨_, d₂, -, h⟩ := run_bind_eq_ok.1 h
    exact ⟨ty, u, d₁, hty, hu, (run_pure_eq_ok.1 h).1.symm⟩
  · cases h

theorem encode_length {a : Expr} (h : a.Steady) :
    encode bound (.length a) = encodeLength a (encode bound a) := by
  cases a with
  | update b i v l => exact absurd rfl (h b i v l)
  | _ => rfl

theorem encodeAll_eq_ok {es : List Expr} {ts : List SExp}
    (h : (encodeAll bound es).run d = .ok (ts, d')) :
    List.Forall₂ (fun e t => ∃ d d', (encode bound e).run d = .ok (t, d')) es ts := by
  induction es generalizing d d' ts with
  | nil =>
    obtain ⟨rfl, -⟩ := run_pure_eq_ok.1 h
    exact .nil
  | cons e es ih =>
    obtain ⟨t, d₁, ht, h⟩ := run_bind_eq_ok.1 h
    obtain ⟨us, d₂, hus, h⟩ := run_bind_eq_ok.1 h
    obtain ⟨rfl, -⟩ := run_pure_eq_ok.1 h
    exact .cons ⟨d, d₁, ht⟩ (ih hus)

/-- The encoder writes terms of the forms above. -/
theorem encodes_of_encode {e : Expr} (h : (encode bound e).run d = .ok (t, d')) : Encodes e t := by
  induction e using Expr.inductShown generalizing bound d d' t with
  | bool b =>
    obtain ⟨rfl, -⟩ := run_pure_eq_ok.1 h
    exact .bool b
  | int n =>
    obtain ⟨rfl, -⟩ := run_pure_eq_ok.1 h
    exact .int n
  | var v =>
    obtain ⟨s, hs, rfl⟩ := encodeVar_eq_ok h
    exact .var hs
  | unary op e ih =>
    obtain ⟨u, d₁, hu, h⟩ := run_bind_eq_ok.1 h
    obtain ⟨rfl, -⟩ := run_pure_eq_ok.1 h
    exact .unary (ih hu)
  | binary op l r hl hr =>
    obtain ⟨u, d₁, hu, h⟩ := run_bind_eq_ok.1 h
    obtain ⟨w, d₂, hw, h⟩ := run_bind_eq_ok.1 h
    obtain ⟨rfl, -⟩ := run_pure_eq_ok.1 h
    exact .binary (hl hu) (hr hw)
  | select a i ha hi =>
    obtain ⟨u, d₁, hu, h⟩ := run_bind_eq_ok.1 h
    obtain ⟨w, d₂, hw, h⟩ := run_bind_eq_ok.1 h
    obtain ⟨rfl, -⟩ := run_pure_eq_ok.1 h
    exact .select (ha hu) (hi hw)
  | lengthUpdate a i v l hl => exact .lengthUpdate (hl h)
  | length a hsteady ha =>
    rw [encode_length hsteady] at h
    obtain ⟨ty, u, d₁, hty, hu, rfl⟩ := encodeLength_eq_ok h
    exact .length hsteady hty (ha hu)
  | update a i v l ha hi hv =>
    obtain ⟨u, d₁, hu, h⟩ := run_bind_eq_ok.1 h
    obtain ⟨w, d₂, hw, h⟩ := run_bind_eq_ok.1 h
    obtain ⟨x, d₃, hx, h⟩ := run_bind_eq_ok.1 h
    obtain ⟨rfl, -⟩ := run_pure_eq_ok.1 h
    exact .update (ha hu) (hi hw) (hv hx)
  | apply p es ih =>
    obtain ⟨s, d₁, hs, h⟩ := run_bind_eq_ok.1 h
    obtain ⟨ts, d₂, hts, h⟩ := run_bind_eq_ok.1 h
    obtain ⟨rfl, -⟩ := run_pure_eq_ok.1 h
    have hall : List.Forall₂
        (fun e t => (∀ t, (∃ d d', (encode bound e).run d = .ok (t, d')) → Encodes e t) ∧
        ∃ d d', (encode bound e).run d = .ok (t, d')) es ts :=
      (List.forall₂_and_left es ts).2 ⟨fun e he t ⟨d, d', ht⟩ => ih e he ht, encodeAll_eq_ok hts⟩
    exact .apply (symbol_eq_ok.1 (run_lift_eq_ok.1 hs).1)
      (hall.imp fun e t hboth => hboth.1 t hboth.2)
  | quant q bs e ih =>
    have hcase : (if bs.isEmpty then encode bound e
      else do
        let vs ← binders bs
        return .app q.word [.list vs, ← encode (Var.names bs ++ bound) e] : Encoder SExp).run d =
          .ok (t, d') := h
    split at hcase
    · next hnil =>
      obtain rfl := List.isEmpty_iff.1 hnil
      exact .quantNil (ih hcase)
    · next hne =>
      obtain ⟨vs, d₁, hvs, hcase⟩ := run_bind_eq_ok.1 hcase
      obtain ⟨u, d₂, hu, hcase⟩ := run_bind_eq_ok.1 hcase
      obtain ⟨rfl, -⟩ := run_pure_eq_ok.1 hcase
      exact .quant (fun hnil => hne (List.isEmpty_iff.2 hnil)) (run_lift_eq_ok.1 hvs).1 (ih hu)

end Encode

/-! ## Atoms -/

theorem isWordStart_of_isSymbolChar {c : Char} (h : isSymbolChar c = true) :
    SExp.isWordStart c = true := by
  have hrange : 33 ≤ c.toNat ∧ c.toNat ≤ 126 := by
    simp only [isSymbolChar, isDigit, Bool.or_eq_true, Bool.and_eq_true, decide_eq_true_eq,
      List.contains_iff_mem] at h
    rcases h with ((h | h) | h) | h
    · have hlo : 48 ≤ c.toNat := h.1
      have hhi : c.toNat ≤ 57 := h.2
      omega
    · have hlo : 97 ≤ c.toNat := h.1
      have hhi : c.toNat ≤ 122 := h.2
      omega
    · have hlo : 65 ≤ c.toNat := h.1
      have hhi : c.toNat ≤ 90 := h.2
      omega
    · have hmarks : "~!@$%^&*_-+=<>.?/".toList.all
          (fun d => 33 ≤ d.toNat && d.toNat ≤ 126) = true := by
        decide
      simpa using List.all_eq_true.1 hmarks c h
  have hblank : isBlank c = false := by
    simp [isBlank]
    omega
  have hmarks : c ≠ '(' ∧ c ≠ ')' ∧ c ≠ ';' ∧ c ≠ '|' ∧ c ≠ '"' := by
    refine ⟨?_, ?_, ?_, ?_, ?_⟩ <;> (rintro rfl; revert h; decide)
  simp [SExp.isWordStart, SExp.isWordChar, hblank, hmarks]

theorem isAtom_of_symbolChars {cs : List Char} (hne : cs ≠ [])
    (h : ∀ c ∈ cs, isSymbolChar c = true) : SExp.IsAtom cs := by
  cases cs with
  | nil => exact absurd rfl hne
  | cons c cs =>
    refine .word (isWordStart_of_isSymbolChar (h c List.mem_cons_self)) fun d hd => ?_
    have hstart := isWordStart_of_isSymbolChar (h d (List.mem_cons_of_mem _ hd))
    simp only [SExp.isWordStart, Bool.and_eq_true] at hstart
    exact hstart.1.1.1

theorem isSimple_eq_true {x : String} (h : isSimple x = true) :
    ∃ c cs, x.toList = c :: cs ∧
      isDigit c = false ∧ (∀ d ∈ c :: cs, isSymbolChar d = true) ∧ x ∉ reserved := by
  unfold isSimple at h
  split at h
  · cases h
  · next c cs hx =>
    simp only [Bool.and_eq_true, Bool.not_eq_true', List.all_eq_true, List.contains_eq_mem,
      decide_eq_false_iff_not] at h
    exact ⟨c, cs, hx, h.1.1.1, List.forall_mem_cons.2 ⟨h.1.1.2, h.1.2⟩, h.2⟩

/-- The symbol of a name is the name itself or the name between bars. -/
theorem symbol?_cases {x s : String} (h : symbol? x = some s) :
    (isSimple x = true ∧ s = x) ∨ ('|' ∉ x.toList ∧ s.toList = '|' :: (x.toList ++ ['|'])) := by
  unfold symbol? at h
  split at h
  · next hsimple => exact .inl ⟨hsimple, (Option.some.inj h).symm⟩
  · split at h
    · cases h
    · next hbar =>
      obtain rfl := Option.some.inj h
      simp only [Bool.or_eq_true, List.contains_eq_mem, decide_eq_true_eq, not_or] at hbar
      exact .inr ⟨hbar.1, by simp⟩

theorem isAtom_symbol {x s : String} (h : symbol? x = some s) : SExp.IsAtom s.toList := by
  rcases symbol?_cases h with ⟨hsimple, rfl⟩ | ⟨hbar, hs⟩
  · obtain ⟨c, cs, hx, -, hchars, -⟩ := isSimple_eq_true hsimple
    rw [hx]
    exact isAtom_of_symbolChars (List.cons_ne_nil c cs) hchars
  · rw [hs]
    exact .quoted (.inl rfl) hbar

theorem toList_natText (n : Nat) : (natText n).toList = Nat.toDigits 10 n := by
  simp [natText, Nat.repr]

theorem isDigit_of_mem_natText {n : Nat} {c : Char} (h : c ∈ (natText n).toList) :
    isDigit c = true := by
  rw [toList_natText] at h
  exact Nat.isDigit_of_mem_toDigits (by decide) (by decide) h

theorem natText_ne_nil (n : Nat) : (natText n).toList ≠ [] := by
  rw [toList_natText]
  exact Nat.toDigits_ne_nil

theorem isAtom_natText (n : Nat) : SExp.IsAtom (natText n).toList :=
  isAtom_of_symbolChars (natText_ne_nil n)
    fun c hc => by simp [isSymbolChar, isDigit_of_mem_natText hc]

theorem symbolChar_sortName (t : Ty) : ∀ c ∈ (sortName t).toList, isSymbolChar c = true := by
  induction t with
  | int | bool => exact List.all_eq_true.1 (by decide)
  | array t ih =>
    have hstem : ∀ c ∈ "arr_".toList, isSymbolChar c = true := List.all_eq_true.1 (by decide)
    intro c hc
    rw [sortName, String.toList_append, List.mem_append] at hc
    exact hc.elim (hstem c) (ih c)

theorem toList_lengthName (t : Ty) :
    (lengthName t).toList = ['l', 'e', 'n', '.'] ++ (sortName t).toList := by
  rw [lengthName, String.toList_append]
  rfl

theorem isAtom_lengthName (t : Ty) : SExp.IsAtom (lengthName t).toList := by
  have hstem : ∀ c ∈ ['l', 'e', 'n', '.'], isSymbolChar c = true := List.all_eq_true.1 (by decide)
  rw [toList_lengthName]
  refine isAtom_of_symbolChars (by simp) fun c hc => ?_
  exact (List.mem_append.1 hc).elim (hstem c) (symbolChar_sortName t c)

/-! ## Readable terms -/

theorem readable_app {f : String} {args : List SExp} (hf : SExp.IsAtom f.toList)
    (hargs : ∀ a ∈ args, a.Readable) : (SExp.app f args).Readable :=
  SExp.readableAll_iff.2 (List.forall_mem_cons.2 ⟨hf, hargs⟩)

/-- Words of the language, which are made of symbol characters. -/
theorem isAtom_word {s : String} (h : s.toList ≠ [] ∧ s.toList.all isSymbolChar = true) :
    SExp.IsAtom s.toList :=
  isAtom_of_symbolChars h.1 (List.all_eq_true.1 h.2)

theorem readable_sort (t : Ty) : (sort t).Readable := by
  induction t with
  | int | bool => exact isAtom_word (by decide)
  | array t ih => exact ⟨isAtom_word (by decide), isAtom_word (by decide), ih, trivial⟩

theorem readable_binders {bs : List Var} {vs : List SExp} (h : binders bs = .ok vs) :
    ∀ v ∈ vs, v.Readable := by
  induction bs generalizing vs with
  | nil =>
    obtain rfl := Except.ok.inj h
    exact fun v hv => absurd hv List.not_mem_nil
  | cons b bs ih =>
    obtain ⟨s, hs, h⟩ := bind_eq_ok.1 h
    obtain ⟨us, hus, h⟩ := bind_eq_ok.1 h
    obtain rfl := Except.ok.inj h
    exact List.forall_mem_cons.2
      ⟨⟨isAtom_symbol (symbol_eq_ok.1 hs), readable_sort b.ty, trivial⟩, ih hus⟩

theorem readable_unaryTerm {op : UnOp} {t : SExp} (ht : t.Readable) :
    (unaryTerm op t).Readable := by
  cases op <;> exact ⟨isAtom_word (by decide), ht, trivial⟩

theorem readable_binaryTerm {op : BinOp} {t u : SExp} (ht : t.Readable)
    (hu : u.Readable) : (binaryTerm op t u).Readable := by
  cases op with
  | ne => exact ⟨isAtom_word (by decide), ⟨isAtom_word (by decide), ht, hu, trivial⟩, trivial⟩
  | _ => exact ⟨isAtom_word (by decide), ht, hu, trivial⟩

theorem readable_intTerm (n : Int) : (intTerm n).Readable := by
  cases n with
  | ofNat n => exact isAtom_natText n
  | negSucc n => exact ⟨isAtom_word (by decide), isAtom_natText (n + 1), trivial⟩

/-- What holds for the term of every argument holds for all terms of a list of arguments. -/
theorem forall_mem_of_forall₂ {α β : Type} {R : α → β → Prop} {P : β → Prop} {as : List α}
    {bs : List β} (h : List.Forall₂ R as bs) (hP : ∀ a ∈ as, ∀ b, R a b → P b) : ∀ b ∈ bs, P b := by
  induction h with
  | nil => exact fun b hb => absurd hb List.not_mem_nil
  | cons hab _ ih =>
    exact List.forall_mem_cons.2 ⟨hP _ List.mem_cons_self _ hab,
      ih fun a ha => hP a (List.mem_cons_of_mem _ ha)⟩

/-- The term of an expression can be read. -/
theorem Encodes.readable {e : Expr} {t : SExp} (h : Encodes e t) : t.Readable := by
  induction e using Expr.inductShown generalizing t with
  | bool b =>
    cases h
    cases b <;> exact isAtom_word (by decide)
  | int n =>
    cases h
    exact readable_intTerm n
  | var v =>
    cases h with
    | var hs => exact isAtom_symbol hs
  | unary op e ih =>
    cases h with
    | unary he => exact readable_unaryTerm (ih he)
  | binary op l r hl hr =>
    cases h with
    | binary ht hu => exact readable_binaryTerm (hl ht) (hr hu)
  | select a i ha hi =>
    cases h with
    | select ht hu => exact ⟨isAtom_word (by decide), ha ht, hi hu, trivial⟩
  | lengthUpdate a i v l hl =>
    cases h with
    | lengthUpdate ht => exact hl ht
    | length hsteady => exact absurd rfl (hsteady a i v l)
  | length a hsteady ha =>
    cases h with
    | lengthUpdate => exact absurd rfl (hsteady _ _ _ _)
    | length _ _ ht => exact ⟨isAtom_lengthName _, ha ht, trivial⟩
  | update a i v l ha hi hv =>
    cases h with
    | update ht hu hw => exact ⟨isAtom_word (by decide), ha ht, hi hu, hv hw, trivial⟩
  | apply p es ih =>
    cases h with
    | apply hs hes =>
      split
      · exact isAtom_symbol hs
      · exact readable_app (isAtom_symbol hs)
          (forall_mem_of_forall₂ hes fun e he t ht => ih e he ht)
  | quant q bs e ih =>
    cases h with
    | quantNil he => exact ih he
    | quant _ hbs he =>
      have hword : SExp.IsAtom q.word.toList := by
        cases q <;> exact isAtom_word (by decide)
      exact ⟨hword, SExp.readableAll_iff.2 (readable_binders hbs), ih he, trivial⟩

end Cutpoint.Smt
