import Mathlib.Data.List.Basic
import Cutpoint.SExp

/-!
# Rendered s-expressions can be read

* `SExp.induct`: induction over s-expressions, with a hypothesis for every item of a list;
* `SExp.IsAtom`: the texts that the scanner takes for one atom, and `SExp.Readable`, that all atoms
  of an s-expression are such;
* `SExp.scan_render`, `SExp.build_tokens`: what the scanner and the builder do with one s-expression
  in front of more text;
* `SExp.parse_renders`: readable s-expressions with single blanks between them are read as they
  were; `SExp.parse_lines`: so are those on lines of their own.
-/

set_option autoImplicit false

namespace Cutpoint.SExp

@[induction_eliminator]
theorem induct {P : SExp → Prop} (atom : ∀ s, P (atom s))
    (list : ∀ es, (∀ e ∈ es, P e) → P (list es)) (e : SExp) : P e :=
  @SExp.rec P (fun es => ∀ e ∈ es, P e) atom list (fun _ h => absurd h List.not_mem_nil)
    (fun _ _ h hs _ hm => (List.mem_cons.1 hm).elim (fun he => he ▸ h) (hs _)) e

/-! ## Atoms -/

/-- The characters that a word can go on with. -/
def isWordChar (c : Char) : Bool := c != '(' && c != ')' && !isBlank c

/-- The characters that a word can start with. -/
def isWordStart (c : Char) : Bool := isWordChar c && c != ';' && c != '|' && c != '"'

/-- A word, or anything without the mark between two bars or two double quotes. -/
inductive IsAtom : List Char → Prop where
  | word {c : Char} {cs : List Char} (hc : isWordStart c = true)
      (hcs : ∀ d ∈ cs, isWordChar d = true) : IsAtom (c :: cs)
  | quoted {m : Char} {cs : List Char} (hm : m = '|' ∨ m = '"') (hcs : m ∉ cs) :
      IsAtom (m :: (cs ++ [m]))

mutual

/-- Every atom can be read. -/
def Readable : SExp → Prop
  | atom s => IsAtom s.toList
  | list es => ReadableAll es

def ReadableAll : List SExp → Prop
  | [] => True
  | e :: es => e.Readable ∧ ReadableAll es

end

theorem readableAll_iff {es : List SExp} : ReadableAll es ↔ ∀ e ∈ es, e.Readable := by
  induction es with
  | nil => simp [ReadableAll]
  | cons e es ih => simp [ReadableAll, ih]

/-! ## Scanning -/

/-- The text is at its end or goes on with what is no part of a word. -/
def Delimited (rest : List Char) : Prop := ∀ c cs, rest = c :: cs → isWordChar c = false

theorem delimited_nil : Delimited [] := fun _ _ h => by cases h

theorem scan_blank {c : Char} (h : isBlank c = true) (cs : List Char) :
    scan .between (c :: cs) = scan .between cs := by
  have hne : c ≠ '(' ∧ c ≠ ')' ∧ c ≠ ';' := by
    refine ⟨?_, ?_, ?_⟩ <;> (rintro rfl; cases h)
  rw [scan, if_neg hne.1, if_neg hne.2.1, if_neg hne.2.2, if_pos h]

theorem scan_word {w cs rest : List Char} (hcs : ∀ d ∈ cs, isWordChar d = true)
    (hrest : Delimited rest) :
    scan (.word w) (cs ++ rest) =
      .atom (String.ofList (w.reverse ++ cs)) :: scan .between rest := by
  induction cs generalizing w with
  | nil =>
    rw [List.nil_append, List.append_nil]
    cases rest with
    | nil => rfl
    | cons c rest =>
      have hc : c = '(' ∨ c = ')' ∨ isBlank c = true := by
        have hword := hrest c rest rfl
        simp only [isWordChar, Bool.and_eq_false_iff, bne_eq_false_iff_eq,
          Bool.not_eq_false'] at hword
        exact or_assoc.1 hword
      rcases hc with rfl | rfl | hblank
      · rfl
      · rfl
      · have hne : c ≠ '(' ∧ c ≠ ')' := by
          refine ⟨?_, ?_⟩ <;> (rintro rfl; cases hblank)
        rw [scan_blank hblank, scan, if_neg hne.1, if_neg hne.2, if_pos hblank]
  | cons c cs ih =>
    have hc := hcs c List.mem_cons_self
    simp only [isWordChar, Bool.and_eq_true, bne_iff_ne, Bool.not_eq_true'] at hc
    rw [List.cons_append, scan, if_neg hc.1.1, if_neg hc.1.2, if_neg (by simp [hc.2]),
      ih fun d hd => hcs d (List.mem_cons_of_mem _ hd)]
    simp

/-- A mark between tokens opens an atom. -/
theorem scan_mark {m : Char} (hm : m = '|' ∨ m = '"') (cs : List Char) :
    scan .between (m :: cs) = scan (.quoted m [m]) cs := by
  have hmark : m ≠ '(' ∧ m ≠ ')' ∧ m ≠ ';' ∧ isBlank m = false := by
    rcases hm with rfl | rfl <;> decide
  obtain ⟨hopen, hclose, hcomment, hblank⟩ := hmark
  rw [scan, if_neg hopen, if_neg hclose, if_neg hcomment, if_neg (by simp [hblank]),
    if_pos (by simpa using hm)]

theorem scan_quoted {m : Char} {w cs rest : List Char} (hcs : m ∉ cs) :
    scan (.quoted m w) (cs ++ m :: rest) =
      .atom (String.ofList (w.reverse ++ (cs ++ [m]))) :: scan .between rest := by
  induction cs generalizing w with
  | nil =>
    rw [List.nil_append, scan, if_pos rfl]
    simp
  | cons c cs ih =>
    obtain ⟨hne, hcs⟩ := not_or.1 (mt List.mem_cons.2 hcs)
    rw [List.cons_append, scan, if_neg (Ne.symm hne), ih hcs]
    simp

theorem scan_atom {cs rest : List Char} (h : IsAtom cs) (hrest : Delimited rest) :
    scan .between (cs ++ rest) = .atom (String.ofList cs) :: scan .between rest := by
  cases h with
  | @word c cs hc hcs =>
    simp only [isWordStart, isWordChar, Bool.and_eq_true, bne_iff_ne, Bool.not_eq_true'] at hc
    obtain ⟨⟨⟨⟨⟨hopen, hclose⟩, hblank⟩, hcomment⟩, hbar⟩, hquote⟩ := hc
    rw [List.cons_append, scan, if_neg hopen, if_neg hclose, if_neg hcomment,
      if_neg (by simp [hblank]),
      if_neg (by simp [hbar, hquote]), scan_word hcs hrest]
    rfl
  | @quoted m cs hm hcs =>
    rw [List.cons_append, List.append_assoc, List.singleton_append, scan_mark hm, scan_quoted hcs]
    rfl

mutual

/-- The tokens of an s-expression. -/
def tokens : SExp → List Token
  | atom s => [.atom s]
  | list es => .open :: (tokensAll es ++ [.close])

def tokensAll : List SExp → List Token
  | [] => []
  | e :: es => e.tokens ++ tokensAll es

end

/-- The text of s-expressions with single blanks between them. -/
def text (es : List SExp) : List Char := (" ".intercalate (renders es)).toList

theorem text_cons_cons (e f : SExp) (es : List SExp) :
    text (e :: f :: es) = e.render.toList ++ ' ' :: text (f :: es) := by
  show (" ".intercalate (e.render :: f.render :: renders es)).toList = _
  rw [String.intercalate_cons_cons]
  simp [text, renders]

theorem text_singleton (e : SExp) : text [e] = e.render.toList := by
  show (" ".intercalate [e.render]).toList = _
  rw [String.toList_intercalate]
  simp [List.intercalate]

theorem scan_text {es : List SExp} (h : ∀ e ∈ es, ∀ rest, Delimited rest →
      scan .between (e.render.toList ++ rest) = e.tokens ++ scan .between rest)
    {rest : List Char} (hrest : Delimited rest) :
    scan .between (text es ++ rest) = tokensAll es ++ scan .between rest := by
  induction es with
  | nil => rfl
  | cons e es ih =>
    have hes := ih fun f hf => h f (List.mem_cons_of_mem _ hf)
    cases es with
    | nil =>
      rw [text_singleton, h e List.mem_cons_self rest hrest]
      simp [tokensAll]
    | cons f es =>
      have hblank : Delimited (' ' :: (text (f :: es) ++ rest)) := by
        intro c cs hc
        obtain ⟨rfl, -⟩ := List.cons.inj hc
        rfl
      rw [text_cons_cons, List.append_assoc, List.cons_append, h e List.mem_cons_self _ hblank,
        show tokensAll (e :: f :: es) = e.tokens ++ tokensAll (f :: es) from rfl,
        List.append_assoc, ← hes]
      congr 1

theorem scan_render {e : SExp} (he : e.Readable) {rest : List Char} (hrest : Delimited rest) :
    scan .between (e.render.toList ++ rest) = e.tokens ++ scan .between rest := by
  induction e generalizing rest with
  | atom s =>
    have hs := scan_atom (show IsAtom s.toList from he) hrest
    rw [String.ofList_toList] at hs
    exact hs
  | list es ih =>
    have hclose : Delimited (')' :: rest) := by
      intro c cs hc
      obtain ⟨rfl, -⟩ := List.cons.inj hc
      rfl
    have hitems : scan .between (text es ++ ')' :: rest) = tokensAll es ++ .close ::
        scan .between rest :=
      scan_text (fun e he' rest hrest => ih e he' (readableAll_iff.1 he e he') hrest) hclose
    have hrender : (list es).render.toList ++ rest = '(' :: (text es ++ ')' :: rest) := by
      show ("(" ++ " ".intercalate (renders es) ++ ")").toList ++ rest = _
      simp [text]
    rw [hrender, scan, if_pos rfl, hitems]
    simp [tokens]

/-! ## Building -/

theorem build_tokensAll {es : List SExp} (h : ∀ e ∈ es, ∀ outer items ts,
      build outer items (e.tokens ++ ts) = build outer (e :: items) ts)
    (outer : List (List SExp)) (items : List SExp) (ts : List Token) :
    build outer items (tokensAll es ++ ts) = build outer (es.reverse ++ items) ts := by
  induction es generalizing items with
  | nil => rfl
  | cons e es ih =>
    rw [tokensAll, List.append_assoc, h e List.mem_cons_self,
      ih fun f hf => h f (List.mem_cons_of_mem _ hf)]
    simp

theorem build_tokens (e : SExp) (outer : List (List SExp)) (items : List SExp) (ts : List Token) :
    build outer items (e.tokens ++ ts) = build outer (e :: items) ts := by
  induction e generalizing outer items ts with
  | atom s => cases outer <;> rfl
  | list es ih =>
    rw [tokens, List.cons_append, List.append_assoc, List.singleton_append]
    have hopen : build outer items (.open :: (tokensAll es ++ .close :: ts)) =
        build (items :: outer) [] (tokensAll es ++ .close :: ts) := by
      cases outer <;> rfl
    rw [hopen, build_tokensAll ih, List.append_nil]
    show build outer (list es.reverse.reverse :: items) ts = _
    rw [List.reverse_reverse]

/-! ## Reading -/

/-- A text is read as the s-expressions whose tokens it is cut into. -/
theorem parse_of_scan {s : String} {es : List SExp} (h : scan .between s.toList = tokensAll es) :
    parse s = .ok es := by
  have hbuild : build [] [] (tokensAll es ++ []) = build [] (es.reverse ++ []) [] :=
    build_tokensAll (fun e _ => build_tokens e) [] [] []
  rw [List.append_nil, List.append_nil] at hbuild
  rw [parse, h, hbuild]
  show Except.ok es.reverse.reverse = _
  rw [List.reverse_reverse]

/-- Readable s-expressions with single blanks between them are read as they were. -/
theorem parse_renders {es : List SExp} (h : ∀ e ∈ es, e.Readable) :
    parse (" ".intercalate (renders es)) = .ok es := by
  have hscan := scan_text (fun e he rest hrest => scan_render (h e he) hrest) delimited_nil
  rw [List.append_nil, show scan .between [] = [] from rfl, List.append_nil] at hscan
  exact parse_of_scan hscan

theorem parse_render {e : SExp} (h : e.Readable) : parse e.render = .ok [e] := by
  have hone : parse (" ".intercalate (renders [e])) = .ok [e] :=
    parse_renders fun f hf => List.mem_singleton.1 hf ▸ h
  have htext : " ".intercalate (renders [e]) = e.render := String.toList_inj.1 (text_singleton e)
  rwa [htext] at hone

theorem scan_lines {es : List SExp} (h : ∀ e ∈ es, e.Readable) :
    scan .between (String.join (es.map fun e => e.render ++ "\n")).toList = tokensAll es := by
  induction es with
  | nil => rfl
  | cons e es ih =>
    have hes := ih fun f hf => h f (List.mem_cons_of_mem _ hf)
    -- a line ends with a blank, which ends the last word on it
    have hbreak : ∀ rest, Delimited ('\n' :: rest) := by
      intro rest c cs hc
      obtain ⟨rfl, -⟩ := List.cons.inj hc
      rfl
    have hline : scan .between ('\n' :: (String.join (es.map fun e => e.render ++ "\n")).toList) =
        tokensAll es := hes
    have htext : (String.join ((e :: es).map fun e => e.render ++ "\n")).toList =
        e.render.toList ++ '\n' :: (String.join (es.map fun e => e.render ++ "\n")).toList := by
      simp [String.join_cons]
    rw [htext, scan_render (h e List.mem_cons_self) (hbreak _), hline]
    rfl

/-- Readable s-expressions on lines of their own are read as they were. -/
theorem parse_lines {es : List SExp} (h : ∀ e ∈ es, e.Readable) :
    parse (String.join (es.map fun e => e.render ++ "\n")) = .ok es :=
  parse_of_scan (scan_lines h)

end Cutpoint.SExp
