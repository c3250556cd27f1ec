import Cutpoint.Proofs.SExp.Reader

/-!
# The grammar of s-expressions

* `SExp.Spells text rest es`: the text, where `rest` comes after it, is a sequence of items and
  spells `es`;
* `SExp.Fails text err`: the text opens what it never closes, and `SExp.Broken text err`: it does,
  or closes what is not open;
* `SExp.Spells.scan`, `SExp.Fails.build`: what scanner and builder make of such texts;
* `SExp.settled`: every text goes wrong, or spells items up to its end or to a closing parenthesis,
  and so `SExp.spells_or_broken`;
* `SExp.parse_exact`: the reader accepts the texts that spell something, each as what it spells, and
  says of every other text what is wrong.
-/

set_option autoImplicit false

namespace Cutpoint.SExp

/-! ## Texts -/

/-- The text is at its end or goes on with a line break. -/
def EndOfLine (rest : List Char) : Prop := ∀ c cs, rest = c :: cs → c = '\n'

/-- The text, where `rest` comes after it, is a sequence of items. White space and comments may
stand around them. -/
inductive Spells : (text rest : List Char) → List SExp → Prop where
  | nil {rest : List Char} : Spells [] rest []
  | blank {c : Char} {text rest : List Char} {es : List SExp} (hc : isBlank c = true)
      (h : Spells text rest es) : Spells (c :: text) rest es
  /-- Comments run to the end of the line. -/
  | comment {cs text rest : List Char} {es : List SExp} (hcs : '\n' ∉ cs)
      (hend : EndOfLine (text ++ rest)) (h : Spells text rest es) :
      Spells (';' :: (cs ++ text)) rest es
  | list {inner text rest : List Char} {items es : List SExp}
      (hitems : Spells inner (')' :: (text ++ rest)) items) (h : Spells text rest es) :
      Spells ('(' :: (inner ++ ')' :: text)) rest (list items :: es)
  /-- An atom between two marks, which keeps them. -/
  | quoted {m : Char} {cs text rest : List Char} {es : List SExp} (hm : m = '|' ∨ m = '"')
      (hcs : m ∉ cs) (h : Spells text rest es) :
      Spells (m :: (cs ++ m :: text)) rest (atom (String.ofList (m :: (cs ++ [m]))) :: es)
  /-- A word, which goes on as long as it can. -/
  | word {c : Char} {cs text rest : List Char} {es : List SExp} (hc : isWordStart c = true)
      (hcs : ∀ d ∈ cs, isWordChar d = true) (hend : Delimited (text ++ rest))
      (h : Spells text rest es) :
      Spells (c :: (cs ++ text)) rest (atom (String.ofList (c :: cs)) :: es)

/-- The text has an atom or a list that is never closed. -/
inductive Fails : List Char → ReadError → Prop where
  | unterminated {m : Char} {cs : List Char} (hm : m = '|' ∨ m = '"') (hcs : m ∉ cs) :
      Fails (m :: cs) (.unterminated m)
  | missingClose {text : List Char} {es : List SExp} (h : Spells text [] es) :
      Fails ('(' :: text) .missingClose
  | inside {text : List Char} {err : ReadError} (h : Fails text err) : Fails ('(' :: text) err
  | after {text rest : List Char} {es : List SExp} {err : ReadError} (h : Spells text rest es)
      (hrest : Fails rest err) : Fails (text ++ rest) err

/-- The text cannot be read. -/
inductive Broken : List Char → ReadError → Prop where
  | unclosed {text : List Char} {err : ReadError} (h : Fails text err) : Broken text err
  | strayClose {text rest : List Char} {es : List SExp} (h : Spells text (')' :: rest) es) :
      Broken (text ++ ')' :: rest) .strayClose

/-- Texts next to each other spell the items of both. -/
theorem Spells.append {text more rest : List Char} {es fs : List SExp}
    (h : Spells text (more ++ rest) es) (hmore : Spells more rest fs) :
    Spells (text ++ more) rest (es ++ fs) := by
  -- what comes after the first text is a variable for the induction
  generalize hnext : more ++ rest = next at h
  induction h with
  | nil => exact hmore
  | blank hc _ ih => exact .blank hc (ih hnext)
  | comment hcs hend _ ih =>
    subst hnext
    rw [List.cons_append, List.append_assoc]
    exact .comment hcs (by rwa [List.append_assoc]) (ih rfl)
  | list hitems _ _ ih =>
    subst hnext
    rw [List.cons_append, List.append_assoc, List.cons_append]
    exact .list (by rwa [List.append_assoc]) (ih rfl)
  | quoted hm hcs _ ih =>
    rw [List.cons_append, List.append_assoc, List.cons_append]
    exact .quoted hm hcs (ih hnext)
  | word hc hcs hend _ ih =>
    subst hnext
    rw [List.cons_append, List.append_assoc]
    exact .word hc hcs (by rwa [List.append_assoc]) (ih rfl)

/-! ## What the reader makes of them -/

theorem scan_comment {cs rest : List Char} (hcs : '\n' ∉ cs) (hrest : EndOfLine rest) :
    scan .comment (cs ++ rest) = scan .between rest := by
  induction cs with
  | nil =>
    cases rest with
    | nil => rfl
    | cons c rest =>
      obtain rfl := hrest c rest rfl
      rw [scan_blank rfl]
      rfl
  | cons c cs ih =>
    obtain ⟨hne, hcs⟩ := not_or.1 (mt List.mem_cons.2 hcs)
    rw [List.cons_append, scan, if_neg (Ne.symm hne), ih hcs]

/-- The scanner cuts the text of items into their tokens, whatever comes after it. -/
theorem Spells.scan {text rest : List Char} {es : List SExp} (h : Spells text rest es) :
    SExp.scan .between (text ++ rest) = tokensAll es ++ SExp.scan .between rest := by
  induction h with
  | nil => rfl
  | blank hc _ ih => rw [List.cons_append, scan_blank hc, ih]
  | @comment cs text rest es hcs hend _ ih =>
    rw [List.cons_append, List.append_assoc, ← ih, ← scan_comment hcs hend]
    rfl
  | @list inner text rest items es _ _ ihitems ih =>
    have hopen : SExp.scan .between ('(' :: (inner ++ ')' :: text) ++ rest) =
        .open :: SExp.scan .between (inner ++ ')' :: (text ++ rest)) := by
      rw [List.cons_append, List.append_assoc, List.cons_append]
      rfl
    have hclose : SExp.scan .between (')' :: (text ++ rest)) = .close ::
        SExp.scan .between (text ++ rest) := rfl
    rw [hopen, ihitems, hclose, ih]
    simp [tokensAll, tokens]
  | quoted hm hcs _ ih =>
    rw [List.cons_append, List.append_assoc, List.cons_append, scan_mark hm, scan_quoted hcs, ih]
    rfl
  | word hc hcs hend _ ih =>
    rw [List.cons_append, List.append_assoc, ← List.cons_append, scan_atom (.word hc hcs) hend, ih]
    rfl

theorem scan_unterminated {m : Char} {w cs : List Char} (hcs : m ∉ cs) :
    scan (.quoted m w) cs = [.unterminated m] := by
  induction cs generalizing w with
  | nil => rfl
  | cons c cs ih =>
    obtain ⟨hne, hcs⟩ := not_or.1 (mt List.mem_cons.2 hcs)
    rw [scan, if_neg (Ne.symm hne), ih hcs]

theorem Spells.build {text rest : List Char} {es : List SExp} (h : Spells text rest es)
    (outer : List (List SExp)) (items : List SExp) :
    SExp.build outer items (SExp.scan .between (text ++ rest)) =
      SExp.build outer (es.reverse ++ items) (SExp.scan .between rest) := by
  rw [h.scan, build_tokensAll fun e _ => build_tokens e]

theorem build_open (outer : List (List SExp)) (items : List SExp) (ts : List Token) :
    build outer items (.open :: ts) = build (items :: outer) [] ts := by
  cases outer <;> rfl

/-- The builder comes to the error, whatever is open. -/
theorem Fails.build {text : List Char} {err : ReadError} (h : Fails text err)
    (outer : List (List SExp)) (items : List SExp) :
    SExp.build outer items (scan .between text) = .error err := by
  induction h generalizing outer items with
  | unterminated hm hcs =>
    rw [scan_mark hm, scan_unterminated hcs]
    cases outer <;> rfl
  | missingClose h =>
    have hend := h.build (items :: outer) []
    rw [List.append_nil] at hend
    exact (build_open outer items _).trans hend
  | inside _ ih => exact (build_open outer items _).trans (ih (items :: outer) [])
  | after h _ ih => rw [h.build, ih]

theorem parse_of_spells {s : String} {es : List SExp} (h : Spells s.toList [] es) :
    parse s = .ok es := by
  have hscan := h.scan
  rw [List.append_nil, show scan .between [] = [] from rfl, List.append_nil] at hscan
  exact parse_of_scan hscan

theorem Broken.build {text : List Char} {err : ReadError} (h : Broken text err) :
    SExp.build [] [] (scan .between text) = .error err := by
  cases h with
  | unclosed h => exact h.build [] []
  | strayClose h =>
    rw [h.build]
    rfl

/-! ## Every text -/

/-- The text goes wrong, or spells items up to its end or to a closing parenthesis. -/
def Settled (cs : List Char) : Prop :=
  (∃ text rest es, cs = text ++ rest ∧ Spells text rest es ∧
    (rest = [] ∨ ∃ rest', rest = ')' :: rest')) ∨ ∃ err, Fails cs err

theorem Spells.settled {text rest : List Char} {es : List SExp} (h : Spells text rest es)
    (hrest : Settled rest) : Settled (text ++ rest) := by
  rcases hrest with ⟨more, rest, fs, rfl, hmore, hend⟩ | ⟨err, herr⟩
  · exact .inl ⟨text ++ more, rest, es ++ fs, (List.append_assoc ..).symm, h.append hmore, hend⟩
  · exact .inr ⟨err, .after h herr⟩

/-- The longest beginning of a text whose characters are of a kind. -/
theorem exists_span (p : Char → Bool) (cs : List Char) :
    ∃ w rest, cs = w ++ rest ∧ (∀ d ∈ w, p d = true) ∧ ∀ c r, rest = c :: r → p c = false := by
  induction cs with
  | nil => exact ⟨[], [], rfl, nofun, nofun⟩
  | cons c cs ih =>
    cases hc : p c with
    | false =>
      refine ⟨[], c :: cs, rfl, nofun, fun d r hd => ?_⟩
      rw [← (List.cons.inj hd).1, hc]
    | true =>
      obtain ⟨w, rest, rfl, hw, hrest⟩ := ih
      exact ⟨c :: w, rest, rfl, List.forall_mem_cons.2 ⟨hc, hw⟩, hrest⟩

/-- The text before the first occurrence of a character. -/
theorem exists_before (m : Char) (cs : List Char) :
    ∃ w rest, cs = w ++ rest ∧ m ∉ w ∧ ∀ c r, rest = c :: r → c = m := by
  obtain ⟨w, rest, hcs, hw, hrest⟩ := exists_span (fun d => d != m) cs
  refine ⟨w, rest, hcs, fun hm => ?_, fun c r hc => ?_⟩
  · simpa using hw m hm
  · simpa using hrest c r hc

/-- A character that is no parenthesis starts white space, a comment or an atom, which may not be
closed. -/
theorem spells_first {c : Char} (hopen : c ≠ '(') (hclose : c ≠ ')') (cs : List Char) :
    (∃ text rest es, c :: cs = text ++ rest ∧ Spells text rest es ∧ rest.length ≤ cs.length) ∨
    ∃ err, Fails (c :: cs) err := by
  by_cases hblank : isBlank c = true
  · exact .inl ⟨[c], cs, [], rfl, .blank hblank .nil, Nat.le_refl _⟩
  by_cases hcomment : c = ';'
  · subst hcomment
    obtain ⟨w, rest, rfl, hw, hend⟩ := exists_before '\n' cs
    exact .inl ⟨';' :: (w ++ []), rest, [], by simp, .comment hw hend .nil, by simp⟩
  by_cases hmark : c = '|' ∨ c = '"'
  · obtain ⟨w, rest, rfl, hw, hend⟩ := exists_before c cs
    cases rest with
    | nil => exact .inr ⟨_, .unterminated hmark (by simpa using hw)⟩
    | cons d rest =>
      obtain rfl := hend d rest rfl
      exact .inl ⟨d :: (w ++ d :: []), rest, _, by simp, .quoted hmark hw .nil, by simp; omega⟩
  · have hstart : isWordStart c = true := by
      obtain ⟨hbar, hquote⟩ := not_or.1 hmark
      simp [isWordStart, isWordChar, hopen, hclose, hblank, hcomment, hbar, hquote]
    obtain ⟨w, rest, rfl, hw, hend⟩ := exists_span isWordChar cs
    exact .inl ⟨c :: (w ++ []), rest, _, by simp, .word hstart hw hend .nil, by simp⟩

theorem settled (cs : List Char) : Settled cs := by
  induction hn : cs.length using Nat.strongRecOn generalizing cs with
  | ind n ih =>
    subst hn
    cases cs with
    | nil => exact .inl ⟨[], [], [], rfl, .nil, .inl rfl⟩
    | cons c cs =>
      by_cases hclose : c = ')'
      · exact .inl ⟨[], c :: cs, [], rfl, .nil, .inr ⟨cs, by rw [hclose]⟩⟩
      by_cases hopen : c = '('
      · -- the items of the list come first, then what follows its parenthesis, if there is one
        subst hopen
        rcases ih cs.length (by simp) cs rfl with
          ⟨inner, rest, items, rfl, hitems, hend⟩ | ⟨err, herr⟩
        · rcases hend with rfl | ⟨rest, rfl⟩
          · rw [List.append_nil]
            exact .inr ⟨_, .missingClose hitems⟩
          · have hlist : Spells ('(' :: (inner ++ ')' :: [])) rest [list items] := .list hitems .nil
            have hrest := hlist.settled (ih rest.length (by simp; omega) rest rfl)
            simpa using hrest
        · exact .inr ⟨err, .inside herr⟩
      · rcases spells_first hopen hclose cs with ⟨text, rest, es, htext, h, hlen⟩ | herr
        · rw [htext]
          exact h.settled (ih rest.length (by simp; omega) rest rfl)
        · exact .inr herr

theorem spells_or_broken (cs : List Char) : (∃ es, Spells cs [] es) ∨ ∃ err, Broken cs err := by
  rcases settled cs with ⟨text, rest, es, rfl, h, rfl | ⟨rest, rfl⟩⟩ | ⟨err, herr⟩
  · rw [List.append_nil]
    exact .inl ⟨es, h⟩
  · exact .inr ⟨_, .strayClose h⟩
  · exact .inr ⟨err, .unclosed herr⟩

theorem parse_eq_ok {s : String} {es : List SExp} : parse s = .ok es ↔ Spells s.toList [] es := by
  constructor
  · intro h
    rcases spells_or_broken s.toList with ⟨fs, hfs⟩ | ⟨err, herr⟩
    · rw [parse_of_spells hfs] at h
      exact Except.ok.inj h ▸ hfs
    · cases herr.build.symm.trans h
  · exact parse_of_spells

theorem parse_eq_error {s : String} {err : ReadError} :
    parse s = .error err ↔ Broken s.toList err := by
  constructor
  · intro h
    rcases spells_or_broken s.toList with ⟨es, hes⟩ | ⟨err', herr⟩
    · cases (parse_of_spells hes).symm.trans h
    · exact Except.error.inj (herr.build.symm.trans h) ▸ herr
  · exact Broken.build

/-- **The reader accepts exactly its grammar**: a text is read as the items that it spells, which
are the only ones. A text that spells none is an error, and the error says what is wrong with it: a
parenthesis closes nothing, or a list or an atom is never closed. -/
theorem parse_exact (s : String) :
    (∀ es, parse s = .ok es ↔ Spells s.toList [] es) ∧
    (∀ es fs, Spells s.toList [] es → Spells s.toList [] fs → es = fs) ∧
    ((¬ ∃ es, Spells s.toList [] es) ↔ ∃ err, parse s = .error err) ∧
    ∀ err, parse s = .error err ↔ Broken s.toList err := by
  refine ⟨fun es => parse_eq_ok, fun es fs hes hfs => ?_, ⟨fun hnone => ?_, ?_⟩,
    fun err => parse_eq_error⟩
  · exact Except.ok.inj ((parse_of_spells hes).symm.trans (parse_of_spells hfs))
  · obtain ⟨err, herr⟩ := (spells_or_broken s.toList).resolve_left hnone
    exact ⟨err, herr.build⟩
  · rintro ⟨err, herr⟩ ⟨es, hes⟩
    cases herr.symm.trans (parse_of_spells hes)

-- marks and semicolons are parts of a word, and a comment hides the parenthesis in it
example :
    parse "é|b|;c(|x y|\"(\"; )\n);" = .ok [atom "é|b|;c", list [atom "|x y|", atom "\"(\""]] := rfl

end Cutpoint.SExp
