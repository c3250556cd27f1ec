import Cutpoint.Proofs.Solver.Reply

/-!
# Rendering loses nothing

What was read can be written out and read again.

* `SExp.Spells.readable`: whatever a text spells is readable, since atoms are kept as they are
  written;
* `SExp.normalise`: the items of a text with single blanks between them, without its comments;
* `SExp.Within e f`: `e` is `f` or stands in it, at any depth;
* `Reply.read_of_answer` and the lemmas after it: which item of a reply a message or a value was
  rendered from;
* `SExp.render_lossless`: what was read is read again, as a whole and part by part.
-/

set_option autoImplicit false

namespace Cutpoint

namespace SExp

/-! ## Readable items -/

theorem Spells.readable {text rest : List Char} {es : List SExp} (h : Spells text rest es) :
    ∀ e ∈ es, e.Readable := by
  induction h with
  | nil => exact fun _ he => absurd he List.not_mem_nil
  | blank _ _ ih => exact ih
  | comment _ _ _ ih => exact ih
  | list _ _ ihitems ih => exact List.forall_mem_cons.2 ⟨readableAll_iff.2 ihitems, ih⟩
  | quoted hm hcs _ ih =>
    refine List.forall_mem_cons.2 ⟨?_, ih⟩
    show IsAtom (String.ofList _).toList
    rw [String.toList_ofList]
    exact .quoted hm hcs
  | word hc hcs _ _ ih =>
    refine List.forall_mem_cons.2 ⟨?_, ih⟩
    show IsAtom (String.ofList _).toList
    rw [String.toList_ofList]
    exact .word hc hcs

theorem readable_of_parse {s : String} {es : List SExp} (h : parse s = .ok es) :
    ∀ e ∈ es, e.Readable :=
  (parse_eq_ok.1 h).readable

/-- The items of a text with single blanks between them. -/
def normalise (s : String) : Except ReadError String := do
  return " ".intercalate (renders (← parse s))

theorem normalise_of_parse {s : String} {es : List SExp} (h : parse s = .ok es) :
    normalise s = .ok (" ".intercalate (renders es)) := by
  rw [normalise, h]
  rfl

/-- The first s-expression is the second one or stands in it, at any depth. -/
inductive Within (e : SExp) : SExp → Prop where
  | whole : Within e e
  | item {f : SExp} {items : List SExp} (hf : f ∈ items) (h : Within e f) : Within e (list items)

theorem Within.readable {e f : SExp} (h : Within e f) (hf : f.Readable) : e.Readable := by
  induction h with
  | whole => exact hf
  | item hmem _ ih => exact ih (readableAll_iff.1 hf _ hmem)

/-! ## Values -/

theorem unquote_cases (s : String) :
    unquote s = s ∨ ∃ name : List Char, s.toList = '|' :: (name ++ ['|']) := by
  unfold unquote
  split
  · next cs hs =>
    split
    · next hlast =>
      obtain ⟨name, rfl⟩ := List.getLast?_eq_some_iff.1 hlast
      exact .inr ⟨name, hs⟩
    · exact .inl rfl
  · exact .inl rfl

/-- A value is rendered, except that a symbol loses its bars and a negated numeral its
parentheses. -/
theorem valueText_cases (v : SExp) :
    v.valueText = v.render ∨ (∃ s name, v = atom s ∧ s.toList = '|' :: (name ++ ['|'])) ∨
    ∃ n, v = list [atom "-", atom n] := by
  unfold valueText
  split
  · next s =>
    rcases unquote_cases s with hs | ⟨name, hs⟩
    · exact .inl hs
    · exact .inr (.inl ⟨s, name, rfl, hs⟩)
  · next n => exact .inr (.inr ⟨n, rfl⟩)
  · exact .inl rfl

theorem constant?_eq_some {d : SExp} {p : String × String} (h : d.constant? = some p) :
    ∃ v : SExp, v.Within d ∧ p.2 = v.valueText := by
  unfold constant? at h
  split at h
  · next name sort v =>
    obtain rfl := Option.some.inj h
    exact ⟨v, .item (by simp) .whole, rfl⟩
  · cases h

theorem mem_constants {f : SExp} {p : String × String} (h : p ∈ f.constants) :
    ∃ v : SExp, v.Within f ∧ p.2 = v.valueText := by
  unfold constants at h
  split at h
  · cases h
  · obtain ⟨d, hd, hp⟩ := List.mem_filterMap.1 h
    obtain ⟨v, hv, htext⟩ := constant?_eq_some hp
    exact ⟨v, .item (List.mem_cons_of_mem _ hd) hv, htext⟩
  · obtain ⟨d, hd, hp⟩ := List.mem_filterMap.1 h
    obtain ⟨v, hv, htext⟩ := constant?_eq_some hp
    exact ⟨v, .item hd hv, htext⟩

end SExp

/-! ## Replies -/

namespace Reply

/-- An answer is what the items say, except for a reply that is blank. -/
theorem read_of_answer {s stderr : String} {es : List SExp} (hparse : SExp.parse s = .ok es)
    {r : Except SolverError Answer} (h : answer ⟨s, stderr⟩ = r) :
    read stderr es = r ∨ r = .ok (.unknown "timeout") ∨ ∃ t, r = .error (.reply (.empty t)) := by
  unfold answer at h
  dsimp only at h
  split at h
  · split at h
    · exact .inr (.inl h.symm)
    · exact .inr (.inr ⟨_, h.symm⟩)
  · rw [hparse] at h
    exact .inl h

theorem read_eq_process {stderr m : String} {es : List SExp}
    (h : read stderr es = .error (.process m)) :
    ∃ e rest, es = .list [.atom "error", e] :: rest ∧ m = e.render := by
  unfold read at h
  split at h
  · cases h
  · split_ifs at h
    all_goals cases h
  · next e rest =>
    cases h
    exact ⟨e, rest, rfl, rfl⟩
  · cases h

theorem read_eq_unexpected {stderr m : String} {es : List SExp}
    (h : read stderr es = .error (.reply (.unexpected m))) :
    ∃ e rest, es = e :: rest ∧ m = e.render := by
  unfold read at h
  split at h
  · cases h
  · next word rest =>
    split_ifs at h
    all_goals cases h
    exact ⟨.atom m, rest, rfl, rfl⟩
  · cases h
  · next e rest _ _ =>
    cases h
    exact ⟨e, rest, rfl, rfl⟩

theorem read_eq_sat {stderr : String} {es : List SExp} {model : List (String × String)}
    (h : read stderr es = .ok (.sat model)) :
    ∃ rest, es = .atom "sat" :: rest ∧ model = rest.flatMap SExp.constants := by
  unfold read at h
  split at h
  · cases h
  · next word rest =>
    split_ifs at h with hunsat hsat
    all_goals cases h
    exact ⟨rest, by rw [hsat], rfl⟩
  · cases h
  · cases h

end Reply

namespace SExp

/-- **Rendering and reading again loses nothing**: the items of a text, with single blanks between
them, are read as they were. So a text that was normalised is normal, and every part of what was
read can be rendered and read on its own: the message of an error is read as the item that it was
rendered from, and so is a value of a model, if it is no symbol in bars and no negated numeral,
which are shortened. -/
theorem render_lossless {s : String} {es : List SExp} (h : parse s = .ok es) :
    parse (" ".intercalate (renders es)) = .ok es ∧
    (∃ t, normalise s = .ok t ∧ parse t = parse s ∧ normalise t = .ok t) ∧
    (∀ f ∈ es, ∀ e : SExp, e.Within f → parse e.render = .ok [e]) ∧
    ∀ stderr : String,
      (∀ m, Reply.answer ⟨s, stderr⟩ = .error (.process m) →
        ∃ e rest, es = list [atom "error", e] :: rest ∧ parse m = .ok [e]) ∧
      (∀ m, Reply.answer ⟨s, stderr⟩ = .error (.reply (.unexpected m)) →
        ∃ e rest, es = e :: rest ∧ parse m = .ok [e]) ∧
      ∀ model, Reply.answer ⟨s, stderr⟩ = .ok (.sat model) →
        ∀ p ∈ model, ∃ f ∈ es, ∃ v : SExp, v.Within f ∧ p.2 = v.valueText ∧
        (parse p.2 = .ok [v] ∨ (∃ t name, v = atom t ∧ t.toList = '|' :: (name ++ ['|'])) ∨
          ∃ n, v = list [atom "-", atom n]) := by
  have hagain : parse (" ".intercalate (renders es)) = .ok es := parse_renders (readable_of_parse h)
  have hparts : ∀ f ∈ es, ∀ e : SExp, e.Within f → parse e.render = .ok [e] := fun f hf e he =>
    parse_render (he.readable (readable_of_parse h f hf))
  refine ⟨hagain, ⟨_, normalise_of_parse h, hagain.trans h.symm, normalise_of_parse hagain⟩, hparts,
    fun stderr => ⟨?_, ?_, ?_⟩⟩
  · intro m hm
    obtain ⟨e, rest, rfl, rfl⟩ :=
      Reply.read_eq_process ((Reply.read_of_answer h hm).resolve_right (by simp))
    exact ⟨e, rest, rfl, hparts _ List.mem_cons_self e (.item (by simp) .whole)⟩
  · intro m hm
    obtain ⟨e, rest, rfl, rfl⟩ :=
      Reply.read_eq_unexpected ((Reply.read_of_answer h hm).resolve_right (by simp))
    exact ⟨e, rest, rfl, hparts e List.mem_cons_self e .whole⟩
  · intro model hm p hp
    obtain ⟨rest, rfl, rfl⟩ :=
      Reply.read_eq_sat ((Reply.read_of_answer h hm).resolve_right (by simp))
    obtain ⟨f, hf, hp⟩ := List.mem_flatMap.1 hp
    obtain ⟨v, hv, htext⟩ := mem_constants hp
    have hmem := List.mem_cons_of_mem (.atom "sat") hf
    refine ⟨f, hmem, v, hv, htext, (valueText_cases v).imp_left fun hrender => ?_⟩
    rw [htext, hrender]
    exact hparts f hmem v hv

namespace Knotted

/-- Atoms that hold blanks, parentheses and a semicolon. -/
def value : SExp := list [atom "|x )|", atom "b;c", atom "\"(\""]

def items : List SExp :=
  [atom "sat", list [list [atom "define-fun", atom "a", list [], atom "S", value]]]

/-- A reply with these items, with a comment that holds a parenthesis and with nothing between some
of the atoms. -/
def reply : String := "sat ;)\n((define-fun a()S(|x )|b;c \"(\")))"

end Knotted

theorem render_lossless_knotted :
    parse Knotted.reply = .ok Knotted.items ∧
    parse "sat ((define-fun a () S (|x )| b;c \"(\")))" = .ok Knotted.items ∧
    Reply.answer ⟨Knotted.reply, ""⟩ = .ok (.sat [("a", "(|x )| b;c \"(\")")]) ∧
    parse "(|x )| b;c \"(\")" = .ok [Knotted.value] := by
  have hparse : parse Knotted.reply = .ok Knotted.items := parse_of_scan (by decide +kernel)
  obtain ⟨hagain, -, hparts, -⟩ := render_lossless hparse
  have hvalue : Knotted.value.Within
      (list [list [atom "define-fun", atom "a", list [], atom "S", Knotted.value]]) :=
    .item List.mem_cons_self (.item (by simp) .whole)
  refine ⟨hparse, ?_, ?_, ?_⟩
  · have htext : "sat ((define-fun a () S (|x )| b;c \"(\")))" =
        " ".intercalate (renders Knotted.items) := by
      decide +kernel
    rw [htext]
    exact hagain
  · rw [Reply.answer_of_spells (parse_eq_ok.1 hparse)]
    rfl
  · have htext : "(|x )| b;c \"(\")" = Knotted.value.render := by decide +kernel
    rw [htext]
    exact hparts _ (List.mem_cons_of_mem _ List.mem_cons_self) _ hvalue

end SExp

end Cutpoint
