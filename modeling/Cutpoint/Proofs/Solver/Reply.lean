import Cutpoint.Proofs.Eval.Exact
import Cutpoint.Proofs.SExp.Grammar
import Cutpoint.Proofs.Smt.Encode
import Cutpoint.Solver.Reply

/-!
# Models are read as they were written

* `Smt.definition`: the command that defines a constant of a model;
* `unquote_symbol`: a symbol without its bars is the name that it stands for;
  `SExp.valueText_literalTerm`: a literal is read as the text of its value;
* `Reply.answer_of_spells`: after `sat` a reply has the constants that its items define, however it
  is laid out;
* `Reply.answer_model`: a reply with the definitions of constants is read as their names and values.
-/

set_option autoImplicit false

namespace Cutpoint

/-! ## Definitions of constants -/

namespace Value

def literal : Value → Expr
  | int n => .int n
  | bool b => .bool b

def ty : Value → Ty
  | int _ => .int
  | bool _ => .bool

end Value

namespace Smt

/-- The definition of a constant: its symbol, no parameters, the sort and the literal of its
value. -/
def definition (name : String) (v : Value) : Except EncodeError SExp := do
  let s ← symbol name
  return .app "define-fun" [.atom s, .list [], sort v.ty, ← term v.literal]

/-- The term of a literal. -/
def literalTerm : Value → SExp
  | .int n => intTerm n
  | .bool b => .atom (boolText b)

theorem term_literal (v : Value) : term v.literal = .ok (literalTerm v) := by
  cases v <;> rfl

theorem readable_literalTerm (v : Value) : (literalTerm v).Readable := by
  cases v with
  | int n => exact readable_intTerm n
  | bool b => cases b <;> exact isAtom_word (by decide)

theorem definition_of_symbol {name s : String} (h : symbol name = .ok s) (v : Value) :
    definition name v = .ok (.app "define-fun" [.atom s, .list [], sort v.ty, literalTerm v]) := by
  unfold definition
  rw [h, term_literal]
  rfl

end Smt

/-! ## Names and values -/

theorem unquote_of_symbolChars {s : String} (h : ∀ c ∈ s.toList, Smt.isSymbolChar c = true) :
    unquote s = s := by
  unfold unquote
  split
  · next cs hs =>
    have hbar : Smt.isSymbolChar '|' = true := h '|' (by rw [hs]; exact List.mem_cons_self)
    exact absurd hbar (by decide)
  · rfl

/-- A symbol without its bars is the name that it stands for. -/
theorem unquote_symbol {name s : String} (h : Smt.symbol? name = some s) : unquote s = name := by
  rcases Smt.symbol?_cases h with ⟨hsimple, rfl⟩ | ⟨-, hs⟩
  · obtain ⟨c, cs, hlist, -, hchars, -⟩ := Smt.isSimple_eq_true hsimple
    exact unquote_of_symbolChars (hlist ▸ hchars)
  · unfold unquote
    rw [hs]
    simp

namespace SExp

/-- A literal is read as the text of its value. -/
theorem valueText_literalTerm (v : Value) : (Smt.literalTerm v).valueText = v.text := by
  cases v with
  | bool b => cases b <;> rfl
  | int n =>
    have hdigits : ∀ m : Nat, ∀ c ∈ (natText m).toList, Smt.isDigit c = true :=
      fun m c hc => Smt.isDigit_of_mem_natText hc
    cases n with
    | ofNat m => exact unquote_of_symbolChars fun c hc => by simp [Smt.isSymbolChar, hdigits m c hc]
    | negSucc m => exact if_pos (List.all_eq_true.2 (hdigits (m + 1)))

end SExp

/-- A definition can be read, and defines its constant. -/
theorem Smt.definition_reads {name : String} {v : Value} {e : SExp}
    (h : definition name v = .ok e) : e.Readable ∧ e.constant? = some (name, v.text) := by
  obtain ⟨s, hs, -⟩ := bind_eq_ok.1 h
  rw [definition_of_symbol hs] at h
  obtain rfl := Except.ok.inj h
  have hsymbol := symbol_eq_ok.1 hs
  constructor
  · exact ⟨isAtom_word (by decide), isAtom_symbol hsymbol, trivial, readable_sort v.ty,
      readable_literalTerm v, trivial⟩
  · show some (unquote s, (literalTerm v).valueText) = _
    rw [unquote_symbol hsymbol, SExp.valueText_literalTerm]

/-! ## Replies -/

namespace SExp

/-- Where every item is a definition, the first one is not taken for a heading. -/
theorem constants_list {es : List SExp} (h : ∀ e ∈ es, e.constant? ≠ none) :
    (list es).constants = es.filterMap constant? := by
  cases es with
  | nil => rfl
  | cons e es =>
    cases e with
    | atom s => exact absurd rfl (h (atom s) List.mem_cons_self)
    | list items => rfl

theorem spells_blanks {cs : List Char} (h : ∀ c ∈ cs, isBlank c = true) : Spells cs [] [] := by
  induction cs with
  | nil => exact .nil
  | cons c cs ih =>
    exact .blank (h c List.mem_cons_self) (ih fun d hd => h d (List.mem_cons_of_mem _ hd))

end SExp

namespace Reply

/-- After `sat` a reply has the constants that its items define, however it is laid out. -/
theorem answer_of_spells {stdout : String} {items : List SExp}
    (h : SExp.Spells stdout.toList [] (.atom "sat" :: items)) (stderr : String) :
    answer ⟨stdout, stderr⟩ = .ok (.sat (items.flatMap SExp.constants)) := by
  have hparse : SExp.parse stdout = .ok (.atom "sat" :: items) := SExp.parse_of_spells h
  have hnonblank : ¬ stdout.toList.all isBlank = true := by
    intro hblank
    have hnone := SExp.parse_of_spells (SExp.spells_blanks (List.all_eq_true.1 hblank))
    cases hparse.symm.trans hnone
  rw [answer, if_neg hnonblank]
  dsimp only
  rw [hparse]
  rfl

/-- The definitions of constants as a list of its own or after the word `model`. -/
theorem constants_definitions {pairs : List (String × Value)} {entries : List SExp}
    (h : List.Forall₂ (fun p e => Smt.definition p.1 p.2 = .ok e) pairs entries) {model : SExp}
    (hmodel : model = .list entries ∨ model = .app "model" entries) :
    model.Readable ∧ model.constants = pairs.map fun p => (p.1, p.2.text) := by
  have hreadable : ∀ e ∈ entries, e.Readable :=
    Smt.forall_mem_of_forall₂ h fun p _ e he => (Smt.definition_reads he).1
  have hsome : ∀ e ∈ entries, e.constant? ≠ none := by
    refine Smt.forall_mem_of_forall₂ h fun p _ e he => ?_
    rw [(Smt.definition_reads he).2]
    exact Option.some_ne_none _
  have hpairs : entries.filterMap SExp.constant? = pairs.map fun p => (p.1, p.2.text) := by
    clear hmodel hreadable hsome
    induction h with
    | nil => rfl
    | cons he _ ih => rw [List.filterMap_cons_some (Smt.definition_reads he).2, ih, List.map_cons]
  rcases hmodel with rfl | rfl
  · exact ⟨SExp.readableAll_iff.2 hreadable, (SExp.constants_list hsome).trans hpairs⟩
  · exact ⟨Smt.readable_app (Smt.isAtom_word (by decide)) hreadable, hpairs⟩

/-- **Models are read as they were written**: if all names have symbols, then the constants can be
defined, and every reply that spells `sat` and the list of their definitions, with or without the
word `model` in front of them, is read as the names and the texts of the values, in this order. -/
theorem answer_model {pairs : List (String × Value)}
    (h : ∀ p ∈ pairs, ∃ s, Smt.symbol p.1 = .ok s) :
    ∃ entries, pairs.mapM (fun p => Smt.definition p.1 p.2) = .ok entries ∧
      ∀ model, model = SExp.list entries ∨ model = SExp.app "model" entries →
        SExp.Spells (String.join ([SExp.atom "sat", model].map fun e => e.render ++ "\n")).toList []
          [.atom "sat", model] ∧
        ∀ stdout stderr, SExp.Spells stdout.toList [] [.atom "sat", model] →
          answer ⟨stdout, stderr⟩ = .ok (.sat (pairs.map fun p => (p.1, p.2.text))) := by
  have hdefined : ∀ p ∈ pairs, ∃ e, Smt.definition p.1 p.2 = .ok e := by
    intro p hp
    obtain ⟨s, hs⟩ := h p hp
    exact ⟨_, Smt.definition_of_symbol hs p.2⟩
  obtain ⟨entries, hentries⟩ := exists_mapM_ok hdefined
  refine ⟨entries, hentries, fun model hmodel => ?_⟩
  obtain ⟨hreadable, hconstants⟩ := constants_definitions (forall₂_of_mapM_ok hentries) hmodel
  constructor
  · have hsat : (SExp.atom "sat").Readable := Smt.isAtom_word (by decide)
    refine SExp.parse_eq_ok.1 (SExp.parse_lines fun e he => ?_)
    simp only [List.mem_cons, List.not_mem_nil, or_false] at he
    rcases he with rfl | rfl
    · exact hsat
    · exact hreadable
  · intro stdout stderr hstdout
    rw [answer_of_spells hstdout, List.flatMap_singleton, hconstants]

namespace Awkward

/-- A name with a parenthesis, a semicolon and a line break, and one that is empty. -/
def pairs : List (String × Value) := [("(;\n", .int (-8)), ("", .bool true)]

def stdout : String := "sat(model(define-fun |(;\n|()Int(- 8));)\n(define-fun || () Bool true))"

end Awkward

theorem answer_model_awkward :
    (∀ p ∈ Awkward.pairs, ∃ s, Smt.symbol p.1 = .ok s) ∧
    answer ⟨Awkward.stdout, "timeout"⟩ = .ok (.sat [("(;\n", "-8"), ("", "true")]) := by
  have hnames : ∀ p ∈ Awkward.pairs, ∃ s, Smt.symbol p.1 = .ok s := by
    intro p hp
    simp only [Awkward.pairs, List.mem_cons, List.not_mem_nil, or_false] at hp
    rcases hp with rfl | rfl <;> exact ⟨_, rfl⟩
  obtain ⟨entries, hentries, hmodel⟩ := answer_model hnames
  obtain rfl := Except.ok.inj hentries
  -- the comment in the middle of the text holds a parenthesis
  exact ⟨hnames, (hmodel _ (.inr rfl)).2 Awkward.stdout "timeout"
    (SExp.parse_eq_ok.1 (SExp.parse_of_scan (by decide +kernel)))⟩

end Reply

end Cutpoint
