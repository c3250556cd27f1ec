import Mathlib.Data.List.TakeWhile
import Cutpoint.Json.Printer
import Cutpoint.Json.Reader

/-!
# Rendered JSON can be read

* `Json.Written`: the values with a spelling of their own, where all strings are text and all
  numbers integers;
* `Json.Lexes`: a text is cut into given tokens, in front of a mark or the end; so are numbers
  (`word?_intText`), strings, whose escapes are undone (`exists_pieces`), and what is put together
  with marks;
* `Json.Parses`: tokens are read as a value, in front of any others, with two steps for each;
* `Json.parse?_render`: a written value is read from its text.
-/

set_option autoImplicit false

namespace Cutpoint.Json

/-- The values that are written with a spelling of their own. -/
inductive Written : Json → Prop where
  | null : Written null
  | bool (b : Bool) : Written (bool b)
  | int (n : Int) : Written (int n)
  | text (s : String) : Written (text s)
  | arr {js : List Json} (h : ∀ j ∈ js, Written j) : Written (arr js)
  | object {ms : List (String × Json)} (h : ∀ m ∈ ms, Written m.2) : Written (object ms)

/-! ## Numbers -/

/-- Only the number zero starts with a zero. -/
theorem head?_toDigits {n : Nat} (h : n ≠ 0) : (Nat.toDigits 10 n).head? ≠ some '0' := by
  induction n using Nat.strongRecOn with
  | ind n ih =>
    by_cases hlt : n < 10
    · rw [Nat.toDigits_of_lt_base hlt]
      have hdigit : ∀ d < 10, d ≠ 0 → [Nat.digitChar d].head? ≠ some '0' := by decide
      exact hdigit n hlt h
    · have hhead := ih (n / 10) (by omega) (by omega)
      obtain ⟨d, ds, hdigits⟩ :=
        List.exists_cons_of_ne_nil (Nat.toDigits_ne_nil (n := n / 10) (b := 10))
      rw [Nat.toDigits_of_base_le (by decide) (by omega), hdigits]
      rwa [hdigits] at hhead

theorem digitsValue_eq (n : Nat) (cs : List Char) :
    digitsValue n cs = Nat.ofDigitChars 10 cs n := by
  induction cs generalizing n with
  | nil => exact Nat.ofDigitChars_nil.symm
  | cons c cs ih =>
    have hstep : n * 10 + (c.toNat - 48) = 10 * n + (c.toNat - '0'.toNat) := by
      rw [Nat.mul_comm n 10]; rfl
    exact (ih _).trans (by rw [Nat.ofDigitChars_cons, hstep])

theorem isDigit_of_mem_toDigits {n : Nat} {c : Char} (h : c ∈ Nat.toDigits 10 n) :
    isDigit c = true :=
  Nat.isDigit_of_mem_toDigits (by decide) (by decide) h

theorem unsigned?_toDigits (n : Nat) : unsigned? (Nat.toDigits 10 n) = some (some n) := by
  have htake : (Nat.toDigits 10 n).takeWhile isDigit = Nat.toDigits 10 n :=
    List.takeWhile_eq_self_iff.2 fun c hc => isDigit_of_mem_toDigits hc
  have hdrop : (Nat.toDigits 10 n).dropWhile isDigit = [] :=
    List.dropWhile_eq_nil_iff.2 fun c hc => isDigit_of_mem_toDigits hc
  have hempty : (Nat.toDigits 10 n).isEmpty = false := by simp
  have hzero : ((Nat.toDigits 10 n).head? == some '0' && (Nat.toDigits 10 n).length != 1) =
      false := by
    by_cases hn : n = 0
    · rw [hn]
      rfl
    · rw [Bool.and_eq_false_iff]
      exact Or.inl (beq_eq_false_iff_ne.2 (head?_toDigits hn))
  simp only [unsigned?, htake, hdrop, hempty, hzero]
  rw [digitsValue_eq, Nat.ofDigitChars_toDigits (by decide) (by decide)]
  rfl

theorem number?_toDigits (n : Nat) : number? (Nat.toDigits 10 n) = some (int n) := by
  have hunsigned := unsigned?_toDigits n
  unfold number?
  split
  · next cs heq =>
    have hminus : '-' ∈ Nat.toDigits 10 n := heq ▸ List.mem_cons_self
    exact absurd (isDigit_of_mem_toDigits hminus) (by decide)
  · rw [hunsigned]

theorem toList_intText_ofNat (n : Nat) : (intText (Int.ofNat n)).toList = Nat.toDigits 10 n := by
  simp [intText, natText, Nat.repr]

theorem toList_intText_negSucc (n : Nat) :
    (intText (Int.negSucc n)).toList = '-' :: Nat.toDigits 10 (n + 1) := by
  simp [intText, natText, Nat.repr]

/-- A number is read from its text. -/
theorem word?_intText (n : Int) : word? (intText n).toList = some (int n) := by
  have hword : ∀ cs : List Char, (∀ c, cs.head? = some c → isDigit c = true ∨ c = '-') →
      word? cs = number? cs := by
    intro cs hcs
    have hne : ∀ c ds, isDigit c = false ∧ c ≠ '-' → cs ≠ c :: ds := by
      rintro c ds ⟨hdigit, hminus⟩ rfl
      rcases hcs c rfl with h | h
      · rw [hdigit] at h
        cases h
      · exact hminus h
    rw [word?, if_neg (hne _ _ (by decide)), if_neg (hne _ _ (by decide)),
      if_neg (hne _ _ (by decide))]
  cases n with
  | ofNat n =>
    rw [toList_intText_ofNat,
      hword _ fun c hc => Or.inl (isDigit_of_mem_toDigits (List.mem_of_head? hc)), number?_toDigits]
    rfl
  | negSucc n =>
    rw [toList_intText_negSucc, hword ('-' :: _) fun c hc => Or.inr (Option.some.inj hc).symm,
      number?, unsigned?_toDigits]
    rfl

/-! ## Tokens -/

/-- The characters that words are made of. -/
def isPlain (c : Char) : Bool := !isBlank c && c != '"' && (mark? c).isNone

theorem isPlain_iff {c : Char} :
    isPlain c = true ↔ isBlank c = false ∧ c ≠ '"' ∧ mark? c = none := by
  simp [isPlain, and_assoc]

theorem isPlain_of_isDigit {c : Char} (h : isDigit c = true) : isPlain c = true := by
  have hne : ∀ d, isDigit d = false → c ≠ d := by
    rintro d hd rfl
    rw [hd] at h
    cases h
  refine isPlain_iff.2 ⟨?_, hne _ (by decide), ?_⟩
  · simp [isBlank, hne ' ' (by decide), hne '\t' (by decide), hne '\n' (by decide),
      hne '\r' (by decide)]
  · rw [mark?, if_neg (hne _ (by decide)), if_neg (hne _ (by decide)), if_neg (hne _ (by decide)),
      if_neg (hne _ (by decide)), if_neg (hne _ (by decide)), if_neg (hne _ (by decide))]

/-- The text is at its end or goes on with a mark. -/
def Stops (cs : List Char) : Prop := ∀ c rest, cs = c :: rest → ∃ t, mark? c = some t

theorem stops_nil : Stops [] := fun _ _ h => by cases h

theorem stops_mark {c : Char} {t : Token} (hm : mark? c = some t) (cs : List Char) :
    Stops (c :: cs) := by
  intro d rest h
  cases h
  exact ⟨t, hm⟩

theorem not_blank_of_mark {c : Char} {t : Token} (hm : mark? c = some t) :
    isBlank c = false ∧ c ≠ '"' := by
  refine ⟨?_, ?_⟩
  · rw [Bool.eq_false_iff]
    intro hblank
    simp only [isBlank, Bool.or_eq_true, decide_eq_true_eq] at hblank
    rcases hblank with ((rfl | rfl) | rfl) | rfl <;> cases hm
  · rintro rfl
    cases hm

/-- In front of a mark or the end the text is cut into the tokens. -/
def Lexes (text : List Char) (ts : List Token) : Prop :=
  ∀ cs, Stops cs → tokens .between (text ++ cs) = (tokens .between cs).map (ts ++ ·)

theorem tokens_mark {c : Char} {t : Token} (hm : mark? c = some t) (cs : List Char) :
    tokens .between (c :: cs) = (tokens .between cs).map (t :: ·) := by
  obtain ⟨hblank, hquote⟩ := not_blank_of_mark hm
  rw [tokens, if_neg (by simp [hblank]), if_neg hquote, hm]

theorem lexes_mark {c : Char} {t : Token} (hm : mark? c = some t) : Lexes [c] [t] :=
  fun cs _ => tokens_mark hm cs

theorem Lexes.mark_cons {c : Char} {t : Token} (hm : mark? c = some t) {text : List Char}
    {ts : List Token} (h : Lexes text ts) : Lexes (c :: text) (t :: ts) := by
  intro cs hcs
  rw [List.cons_append, tokens_mark hm, h cs hcs, Option.map_map]
  rfl

theorem Lexes.append_mark {a b : List Char} {ts us : List Token} (ha : Lexes a ts) {c : Char}
    {t : Token} (hm : mark? c = some t) (hb : Lexes (c :: b) us) :
    Lexes (a ++ c :: b) (ts ++ us) := by
  intro cs hcs
  rw [List.append_assoc, ha (c :: b ++ cs) (stops_mark hm _), hb cs hcs, Option.map_map]
  congr 1
  funext rest
  simp

/-- A word that was read in part is read to its end. -/
theorem tokens_word {w ds : List Char} {j : Json} (hds : ∀ c ∈ ds, isPlain c = true)
    (hj : word? (w.reverse ++ ds) = some j) {cs : List Char} (hcs : Stops cs) :
    tokens (.word w) (ds ++ cs) = (tokens .between cs).map (.word j :: ·) := by
  induction ds generalizing w with
  | nil =>
    rw [List.append_nil] at hj
    cases cs with
    | nil =>
      show (word? w.reverse).map (fun j => [Token.word j]) = _
      rw [hj]
      rfl
    | cons c cs =>
      obtain ⟨t, hm⟩ := hcs c cs rfl
      obtain ⟨hblank, hquote⟩ := not_blank_of_mark hm
      rw [tokens_mark hm, List.nil_append, tokens, if_neg (by simp [hblank]), if_neg hquote, hm, hj]
      cases tokens .between cs <;> rfl
  | cons c ds ih =>
    obtain ⟨hblank, hquote, hmark⟩ := isPlain_iff.1 (hds c List.mem_cons_self)
    rw [List.cons_append, tokens, if_neg (by simp [hblank]), if_neg hquote, hmark]
    refine ih (fun d hd => hds d (List.mem_cons_of_mem _ hd)) ?_
    rw [List.reverse_cons, List.append_assoc]
    exact hj

theorem lexes_word {w : List Char} {j : Json} (hne : w ≠ []) (hw : ∀ c ∈ w, isPlain c = true)
    (hj : word? w = some j) : Lexes w [.word j] := by
  intro cs hcs
  cases w with
  | nil => exact absurd rfl hne
  | cons c w =>
    obtain ⟨hblank, hquote, hmark⟩ := isPlain_iff.1 (hw c List.mem_cons_self)
    rw [List.cons_append, tokens, if_neg (by simp [hblank]), if_neg hquote, hmark]
    exact tokens_word (w := [c]) (fun d hd => hw d (List.mem_cons_of_mem _ hd)) hj hcs

theorem lexes_int (n : Int) : Lexes (intText n).toList [.word (int n)] := by
  have hdigits : ∀ m, ∀ c ∈ Nat.toDigits 10 m, isPlain c = true :=
    fun m c hc => isPlain_of_isDigit (isDigit_of_mem_toDigits hc)
  have hword := word?_intText n
  cases n with
  | ofNat n =>
    rw [toList_intText_ofNat] at hword ⊢
    exact lexes_word Nat.toDigits_ne_nil (hdigits n) hword
  | negSucc n =>
    rw [toList_intText_negSucc] at hword ⊢
    exact lexes_word (List.cons_ne_nil _ _)
      (List.forall_mem_cons.2 ⟨by decide, hdigits (n + 1)⟩) hword

/-! ## Strings -/

theorem hexValue?_hexDigit : ∀ d < 16, hexValue? (hexDigit d) = some d := by decide

/-- What stands for a character is read as one part of a string, which spells the character. -/
theorem exists_piece (c : Char) :
    ∃ p, (∀ ps cs, tokens (.string ps) (escapeChar c ++ cs) = tokens (.string (p :: ps)) cs) ∧
    ∀ qs, spell? (p :: qs) = (spell? qs).map (c :: ·) := by
  unfold escapeChar
  by_cases hquote : c = '"'
  · subst hquote
    exact ⟨.char '"', fun _ _ => rfl, fun _ => rfl⟩
  by_cases hslash : c = '\\'
  · subst hslash
    exact ⟨.char '\\', fun _ _ => rfl, fun _ => rfl⟩
  rw [if_neg hquote, if_neg hslash]
  split
  · next h => subst h; exact ⟨.char '\x08', fun _ _ => rfl, fun _ => rfl⟩
  split
  · next h => subst h; exact ⟨.char '\t', fun _ _ => rfl, fun _ => rfl⟩
  split
  · next h => subst h; exact ⟨.char '\n', fun _ _ => rfl, fun _ => rfl⟩
  split
  · next h => subst h; exact ⟨.char '\x0c', fun _ _ => rfl, fun _ => rfl⟩
  split
  · next h => subst h; exact ⟨.char '\r', fun _ _ => rfl, fun _ => rfl⟩
  split
  · next hlt =>
    have hhigh := hexValue?_hexDigit (c.toNat / 16) (by omega)
    have hlow := hexValue?_hexDigit (c.toNat % 16) (by omega)
    refine ⟨.unit c.toNat, fun ps cs => ?_, fun qs => ?_⟩
    · have hescape : tokens (.string ps)
          (['\\', 'u', '0', '0', hexDigit (c.toNat / 16), hexDigit (c.toNat % 16)] ++ cs) =
          tokens (.hex ps 2 0) (hexDigit (c.toNat / 16) :: hexDigit (c.toNat % 16) :: cs) := rfl
      have hvalue : (0 * 16 + c.toNat / 16) * 16 + c.toNat % 16 = c.toNat := by omega
      rw [hescape, tokens, hhigh]
      simp only [show ¬ 2 ≤ 1 by decide, if_false]
      rw [tokens, hlow]
      show tokens (.string (.unit ((0 * 16 + c.toNat / 16) * 16 + c.toNat % 16) :: ps)) cs = _
      rw [hvalue]
    · have hnot : isHighSurrogate c.toNat = false ∧ isLowSurrogate c.toNat = false := by
        constructor
        · rw [isHighSurrogate, Bool.and_eq_false_iff]
          exact Or.inl (decide_eq_false (by omega))
        · rw [isLowSurrogate, Bool.and_eq_false_iff]
          exact Or.inl (decide_eq_false (by omega))
      conv => lhs; unfold spell?
      rw [if_neg (by simp [hnot.1]), if_neg (by simp [hnot.2]), Char.ofNat_toNat]
  · next hge =>
    refine ⟨.char c, fun ps cs => ?_, fun _ => rfl⟩
    rw [List.singleton_append, tokens, if_neg hquote, if_neg hslash, if_neg hge]

/-- The escapes of a text are undone. -/
theorem exists_pieces (s : List Char) :
    ∃ qs, (∀ ps cs, tokens (.string ps) (s.flatMap escapeChar ++ cs) =
    tokens (.string (qs.reverse ++ ps)) cs) ∧ spell? qs = some s := by
  induction s with
  | nil => exact ⟨[], fun _ _ => rfl, rfl⟩
  | cons c s ih =>
    obtain ⟨p, hp, hspell⟩ := exists_piece c
    obtain ⟨qs, hqs, hs⟩ := ih
    refine ⟨p :: qs, fun ps cs => ?_, ?_⟩
    · rw [List.flatMap_cons, List.append_assoc, hp, hqs]
      simp
    · rw [hspell, hs]
      rfl

theorem lexes_quote (s : String) : Lexes (quote s).toList [.str (some s)] := by
  intro cs _
  obtain ⟨qs, hqs, hs⟩ := exists_pieces s.toList
  have htext : (quote s).toList ++ cs = '"' :: (s.toList.flatMap escapeChar ++ '"' :: cs) := by
    simp [quote]
  have hstart : ∀ rest, tokens .between ('"' :: rest) = tokens (.string []) rest := fun _ => rfl
  rw [htext, hstart, hqs, List.append_nil, tokens, if_pos rfl, List.reverse_reverse, hs,
    Option.map_some, String.ofList_toList]
  rfl

/-! ## Values -/

/-- The tokens are read as the value, whatever follows. -/
def Parses (ts : List Token) (j : Json) : Prop :=
  ∀ fuel rest, 2 * ts.length ≤ fuel → parseValue fuel (ts ++ rest) = some (j, rest)

/-- No value starts with a closing bracket. -/
theorem Parses.not_closeArr {ts : List Token} {j : Json} (h : Parses ts j) (rest ts' : List Token) :
    ts ++ rest ≠ .closeArr :: ts' := by
  intro heq
  have hread := h (2 * ts.length + 1) rest (by omega)
  rw [heq] at hread
  cases hread

theorem parses_word (j : Json) : Parses [.word j] j := by
  intro fuel rest hfuel
  obtain ⟨fuel, rfl⟩ : ∃ k, fuel = k + 1 := ⟨fuel - 1, by simp at hfuel; omega⟩
  rfl

theorem parses_str (s : Option String) : Parses [.str s] (str s) := by
  intro fuel rest hfuel
  obtain ⟨fuel, rfl⟩ : ∃ k, fuel = k + 1 := ⟨fuel - 1, by simp at hfuel; omega⟩
  rfl

/-- A text is cut into tokens that are read as the value. -/
def Reads (text : List Char) (j : Json) : Prop := ∃ ts, Lexes text ts ∧ Parses ts j

theorem toList_intercalate_cons_cons (a b : String) (l : List String) :
    (",".intercalate (a :: b :: l)).toList = a.toList ++ ',' ::
      (",".intercalate (b :: l)).toList := by
  rw [String.intercalate_cons_cons]
  simp

theorem toList_intercalate_singleton (a : String) : (",".intercalate [a]).toList = a.toList := by
  rw [String.toList_intercalate]
  simp [List.intercalate]

/-- The items of an array with commas between them, up to its closing bracket. -/
theorem exists_items {js : List Json} (hne : js ≠ []) (h : ∀ j ∈ js, Reads j.render.toList j) :
    ∃ ts, Lexes (",".intercalate (renderItems js)).toList ts ∧
      (∀ rest ts', ts ++ rest ≠ .closeArr :: ts') ∧
      ∀ fuel rest, 2 * (ts.length + 1) ≤ fuel →
        parseItems fuel (ts ++ .closeArr :: rest) = some (js, rest) := by
  induction js with
  | nil => exact absurd rfl hne
  | cons j js ih =>
    rw [List.forall_mem_cons] at h
    obtain ⟨ts, hlexes, hparses⟩ := h.1
    cases js with
    | nil =>
      refine ⟨ts, ?_, hparses.not_closeArr, fun fuel rest hfuel => ?_⟩
      · show Lexes (",".intercalate [j.render]).toList ts
        rw [toList_intercalate_singleton]
        exact hlexes
      · obtain ⟨fuel, rfl⟩ : ∃ k, fuel = k + 1 := ⟨fuel - 1, by omega⟩
        rw [parseItems, hparses fuel (.closeArr :: rest) (by omega)]
    | cons j' js =>
      obtain ⟨us, hlexes', -, hparses'⟩ := ih (List.cons_ne_nil _ _) h.2
      refine ⟨ts ++ .comma :: us, ?_, fun rest ts' => ?_, fun fuel rest hfuel => ?_⟩
      · show Lexes (",".intercalate (j.render :: j'.render :: renderItems js)).toList _
        rw [toList_intercalate_cons_cons]
        exact hlexes.append_mark rfl (hlexes'.mark_cons rfl)
      · rw [List.append_assoc]
        exact hparses.not_closeArr _ _
      · simp only [List.length_append, List.length_cons] at hfuel
        obtain ⟨fuel, rfl⟩ : ∃ k, fuel = k + 1 := ⟨fuel - 1, by omega⟩
        rw [List.append_assoc, List.cons_append, parseItems, hparses fuel _ (by omega)]
        show Option.map _ (parseItems fuel (us ++ .closeArr :: rest)) = _
        rw [hparses' fuel rest (by omega)]
        rfl

/-- The members of an object with commas between them, up to its closing brace. -/
theorem exists_members {ms : List (String × Json)} (hne : ms ≠ [])
    (h : ∀ m ∈ ms, Reads m.2.render.toList m.2) :
    ∃ ts, Lexes (",".intercalate (renderMembers (ms.map fun m => (some m.1, m.2)))).toList ts ∧
      (∃ k ts', ts = .str k :: ts') ∧ ∀ fuel rest, 2 * (ts.length + 1) ≤ fuel →
        parseMembers fuel (ts ++ .closeObj :: rest) =
          some (ms.map fun m => (some m.1, m.2), rest) := by
  induction ms with
  | nil => exact absurd rfl hne
  | cons m ms ih =>
    obtain ⟨k, j⟩ := m
    rw [List.forall_mem_cons] at h
    obtain ⟨ts, hlexes, hparses⟩ := h.1
    have hmember : Lexes (quote k ++ ":" ++ j.render).toList (.str (some k) :: .colon :: ts) := by
      have hparts : Lexes ((quote k).toList ++ ':' :: j.render.toList)
          ([.str (some k)] ++ .colon :: ts) :=
        (lexes_quote k).append_mark rfl (hlexes.mark_cons rfl)
      simpa using hparts
    cases ms with
    | nil =>
      refine ⟨.str (some k) :: .colon :: ts, ?_, ⟨_, _, rfl⟩, fun fuel rest hfuel => ?_⟩
      · show Lexes (",".intercalate [quote k ++ ":" ++ j.render]).toList _
        rw [toList_intercalate_singleton]
        exact hmember
      · simp only [List.length_cons] at hfuel
        obtain ⟨fuel, rfl⟩ : ∃ k, fuel = k + 1 := ⟨fuel - 1, by omega⟩
        rw [List.cons_append, List.cons_append, parseMembers,
          hparses fuel (.closeObj :: rest) (by omega)]
        rfl
    | cons m' ms =>
      obtain ⟨us, hlexes', -, hparses'⟩ := ih (List.cons_ne_nil _ _) h.2
      refine ⟨.str (some k) :: .colon :: ts ++ .comma :: us, ?_, ⟨_, _, rfl⟩,
        fun fuel rest hfuel => ?_⟩
      · show Lexes (",".intercalate ((quote k ++ ":" ++ j.render) ::
          (quote m'.1 ++ ":" ++ m'.2.render) :: _)).toList _
        rw [toList_intercalate_cons_cons]
        exact hmember.append_mark rfl (hlexes'.mark_cons rfl)
      · simp only [List.length_append, List.length_cons] at hfuel
        obtain ⟨fuel, rfl⟩ : ∃ k, fuel = k + 1 := ⟨fuel - 1, by omega⟩
        rw [List.append_assoc, List.cons_append, List.cons_append, List.cons_append, parseMembers,
          hparses fuel _ (by omega)]
        show Option.map _ (parseMembers fuel (us ++ .closeObj :: rest)) = _
        rw [hparses' fuel rest (by omega)]
        rfl

theorem reads_render {j : Json} (h : j.Written) : Reads j.render.toList j := by
  induction h with
  | null =>
    exact ⟨[.word null], lexes_word (by decide) (List.all_eq_true.1 (by decide)) rfl, parses_word _⟩
  | bool b =>
    cases b <;>
      exact ⟨_, lexes_word (by decide) (List.all_eq_true.1 (by decide)) rfl, parses_word _⟩
  | int n => exact ⟨_, lexes_int n, parses_word _⟩
  | text s => exact ⟨_, lexes_quote s, parses_str _⟩
  | @arr js _ ih =>
    have hrender : (arr js).render.toList = '[' ::
        ((",".intercalate (renderItems js)).toList ++ [']']) := by
      show ("[" ++ ",".intercalate (renderItems js) ++ "]").toList = _
      simp
    by_cases hjs : js = []
    · subst hjs
      refine ⟨[.openArr, .closeArr], (lexes_mark rfl).mark_cons rfl, fun fuel rest hfuel => ?_⟩
      obtain ⟨fuel, rfl⟩ : ∃ k, fuel = k + 1 := ⟨fuel - 1, by simp at hfuel; omega⟩
      rfl
    · obtain ⟨ts, hlexes, hopen, hparses⟩ := exists_items hjs ih
      refine ⟨.openArr :: (ts ++ [.closeArr]), ?_, fun fuel rest hfuel => ?_⟩
      · rw [hrender]
        exact (hlexes.append_mark rfl (lexes_mark rfl)).mark_cons rfl
      · simp only [List.length_cons, List.length_append, List.length_nil] at hfuel
        obtain ⟨fuel, rfl⟩ : ∃ k, fuel = k + 1 := ⟨fuel - 1, by omega⟩
        rw [List.cons_append, List.append_assoc, List.singleton_append, parseValue,
          hparses fuel rest (by omega)]
        · rfl
        · exact fun ts' => hopen _ ts'
  | @object ms _ ih =>
    have hrender : (object ms).render.toList =
        '\x7b' :: ((",".intercalate (renderMembers (ms.map fun m => (some m.1, m.2)))).toList ++
        ['\x7d']) := by
      show ("\x7b" ++ ",".intercalate (renderMembers (ms.map fun m => (some m.1, m.2))) ++
        "\x7d").toList = _
      simp
    by_cases hms : ms = []
    · subst hms
      refine ⟨[.openObj, .closeObj], (lexes_mark rfl).mark_cons rfl, fun fuel rest hfuel => ?_⟩
      obtain ⟨fuel, rfl⟩ : ∃ k, fuel = k + 1 := ⟨fuel - 1, by simp at hfuel; omega⟩
      rfl
    · obtain ⟨ts, hlexes, ⟨k, ts', rfl⟩, hparses⟩ := exists_members hms ih
      refine ⟨.openObj :: (.str k :: ts' ++ [.closeObj]), ?_, fun fuel rest hfuel => ?_⟩
      · rw [hrender]
        exact (hlexes.append_mark rfl (lexes_mark rfl)).mark_cons rfl
      · simp only [List.length_cons, List.length_append, List.length_nil] at hfuel
        obtain ⟨fuel, rfl⟩ : ∃ k, fuel = k + 1 := ⟨fuel - 1, by omega⟩
        have hmembers := hparses fuel rest (by simp only [List.length_cons]; omega)
        rw [List.cons_append, List.append_assoc, List.singleton_append,
          List.cons_append, parseValue]
        · rw [List.cons_append] at hmembers
          rw [hmembers]
          rfl
        · intro ts'' heq
          cases heq

/-- A written value is read from its text. -/
theorem parse?_render {j : Json} (h : j.Written) : parse? j.render = some j := by
  obtain ⟨ts, hlexes, hparses⟩ := reads_render h
  have htokens := hlexes [] stops_nil
  rw [List.append_nil, show tokens .between [] = some [] from rfl, Option.map_some,
    List.append_nil] at htokens
  have hread := hparses (2 * ts.length + 1) [] (by omega)
  rw [List.append_nil] at hread
  simp only [parse?, htokens, hread]

end Cutpoint.Json
