import Cutpoint.Toml.Number

/-!
# Reading TOML text

Values are read by descent from the front of the characters; a bound on the number of steps comes
from the length of the text. A line is a header, a key with a value, or blank, and may end in a
comment. Arrays and tables nest fewer than `maxLevels` deep in a value, and a dotted key has fewer
parts than that. Dates and arrays of tables are not read.
-/

set_option autoImplicit false

namespace Cutpoint.Toml

/-- What the nesting of a value and the length of a key stay below. -/
def maxLevels : Nat := 80

/-! ## Characters -/

/-- A character that may stand in a comment and, quotes apart, in a string. -/
def isPlain (c : Char) : Bool := c = '\t' || (' ' ≤ c && c ≠ '\x7f')

def isSpace (c : Char) : Bool := c = ' ' || c = '\t'

def isBareKey (c : Char) : Bool := c.isAlphanum || c = '-' || c = '_'

/-- A character of a number or a word. -/
def isWordChar (c : Char) : Bool := c.isAlphanum || c = '-' || c = '_' || c = '+' || c = '.'

def skipSpaces (cs : List Char) : List Char := cs.dropWhile isSpace

/-- Line ends in one form: a carriage return before a line feed is dropped. -/
def joinLineEnds : List Char → List Char
  | [] => []
  | c :: cs => if c = '\r' && cs.head? = some '\n' then joinLineEnds cs else c :: joinLineEnds cs

/-- Skips the rest of a line: spaces, a comment, and the line's end. -/
def endLine? (cs : List Char) : Option (List Char) :=
  let rest := match skipSpaces cs with
    | '#' :: cs' => cs'.dropWhile isPlain
    | cs' => cs'
  match rest with
  | [] => some []
  | '\n' :: cs' => some cs'
  | _ => none

/-- Skips spaces, line ends and comments. -/
def skipFiller? : (inComment : Bool) → List Char → Option (List Char)
  | _, [] => some []
  | false, c :: cs =>
    if isSpace c || c = '\n' then skipFiller? false cs else if c = '#' then skipFiller? true cs
      else some (c :: cs)
  | true, c :: cs =>
    if c = '\n' then skipFiller? false cs else if isPlain c then skipFiller? true cs else none

/-! ## Strings -/

def escape? (c : Char) : Option Char := if c = '/' then none else Json.shortEscape? c

/-- Where a string in double quotes stands. -/
inductive Mode where
  | plain
  /-- After a backslash. -/
  | escape
  /-- In the digits of a long escape: how many are to come, and the number so far. -/
  | digits (left value : Nat)
  /-- Between a backslash and the end of its line. -/
  | toLineEnd
  /-- After a line that ended in a backslash. -/
  | joining
  deriving DecidableEq

/-- Puts a character in front of what was read. -/
def cons? (c : Char) (r : Option (List Char × List Char)) : Option (List Char × List Char) :=
  r.map fun p => (c :: p.1, p.2)

/-- After a quote of a long string: the end of the string, if two more quotes follow. Up to two
before the last three belong to the text. -/
def closing? (quote : Char) (cs : List Char) : Option (List Char × List Char) :=
  let n := (cs.takeWhile (· = quote)).length
  if n < 2 then none
  else
    let extra := min (n - 2) 2
    some (List.replicate extra quote, cs.drop (2 + extra))

/-- The rest of a string in double quotes, and what follows it. Only a `long` string goes over
several lines. -/
def basic? (long : Bool) : Mode → List Char → Option (List Char × List Char)
  | _, [] => none
  | .escape, c :: cs =>
    if c = 'u' then basic? long (.digits 4 0) cs
    else if c = 'U' then basic? long (.digits 8 0) cs
    else if long && c = '\n' then basic? long .joining cs
    else if long && isSpace c then basic? long .toLineEnd cs
    else
      match escape? c with
      | some d => cons? d (basic? long .plain cs)
      | none => none
  | .digits left value, c :: cs =>
    match Json.hexValue? c with
    | none => none
    | some d =>
      let v := value * 16 + d
      if 1 < left then basic? long (.digits (left - 1) v) cs
      else if v.isValidChar then cons? (Char.ofNat v) (basic? long .plain cs)
      else none
  | .toLineEnd, c :: cs =>
    if isSpace c then basic? long .toLineEnd cs
      else if c = '\n' then basic? long .joining cs else none
  | mode, c :: cs =>
    if mode = .joining && (isSpace c || c = '\n') then basic? long .joining cs
    else if c = '"' then
      if long then
        match closing? '"' cs with
        | some r => some r
        | none => cons? c (basic? long .plain cs)
      else some ([], cs)
    else if c = '\\' then basic? long .escape cs
    else if isPlain c || (long && c = '\n') then cons? c (basic? long .plain cs)
    else none

/-- The rest of a string in single quotes, which has no escapes. -/
def literal? (long : Bool) : List Char → Option (List Char × List Char)
  | [] => none
  | c :: cs =>
    if c = '\'' then
      if long then
        match closing? c cs with
        | some r => some r
        | none => cons? c (literal? long cs)
      else some ([], cs)
    else if isPlain c || (long && c = '\n') then cons? c (literal? long cs)
    else none

/-- The rest of a string of either kind. -/
def quoted? (quote : Char) (long : Bool) (cs : List Char) : Option (String × List Char) :=
  (if quote = '"' then basic? long .plain cs else literal? long cs).map fun p =>
    (String.ofList p.1, p.2)

/-- The string after an opening quote; three quotes open a long one, whose first line end does not
count. -/
def string? (quote : Char) (cs : List Char) : Option (String × List Char) :=
  if 2 ≤ (cs.takeWhile (· = quote)).length then
    match cs.drop 2 with
    | '\n' :: cs' => quoted? quote true cs'
    | cs' => quoted? quote true cs'
  else quoted? quote false cs

/-! ## Keys -/

def simpleKey? : List Char → Option (String × List Char)
  | [] => none
  | c :: cs =>
    if c = '"' || c = '\'' then quoted? c false cs
    else if isBareKey c then some (String.ofList (c :: cs.takeWhile isBareKey),
      cs.dropWhile isBareKey)
    else none

/-- Reads a dotted key of at most the given number of parts, and the spaces after it. -/
def keyParts? : (parts : Nat) → List Char → Option (Key × List Char)
  | 0, _ => none
  | parts + 1, cs => do
    let (k, cs) ← simpleKey? cs
    match skipSpaces cs with
    | '.' :: cs =>
      let (key, cs) ← keyParts? parts (skipSpaces cs)
      return (⟨k :: key.way, key.last⟩, cs)
    | cs => return (⟨[], k⟩, cs)

/-- Reads a dotted key, and the spaces after it. -/
def key? : List Char → Option (Key × List Char) := keyParts? (maxLevels - 1)

/-! ## Values

The number of levels is that of arrays and tables that may still be entered. -/

mutual

def value? : (steps levels : Nat) → List Char → Option (Toml × List Char)
  | 0, _, _ => none
  | _, _, [] => none
  | steps + 1, levels, c :: cs =>
    if c = '"' || c = '\'' then (string? c cs).map fun p => (.str p.1, p.2)
    else if c = '[' then
      match levels with
      | 0 => none
      | inner + 1 => items? steps inner [] cs
    else if c = '\x7b' then
      match levels, skipSpaces cs with
      | 0, _ => none
      | _, '\x7d' :: cs' => some (.table .value [], cs')
      | inner + 1, cs' => pairs? steps inner [] cs'
    else do
      let t ← word? ((c :: cs).takeWhile isWordChar)
      return (t, (c :: cs).dropWhile isWordChar)

/-- The rest of an array, after the given items in reverse. -/
def items? : (steps levels : Nat) → List Toml → List Char → Option (Toml × List Char)
  | 0, _, _, _ => none
  | steps + 1, levels, before, cs => do
    match ← skipFiller? false cs with
    | ']' :: cs => return (.arr before.reverse, cs)
    | cs =>
      let (t, cs) ← value? steps levels cs
      match ← skipFiller? false cs with
      | ',' :: cs => items? steps levels (t :: before) cs
      | ']' :: cs => return (.arr (t :: before).reverse, cs)
      | _ => none

/-- The rest of a table that is written as a value, after the given members. -/
def pairs? : (steps levels : Nat) → Members → List Char → Option (Toml × List Char)
  | 0, _, _, _ => none
  | steps + 1, levels, before, cs => do
    let (key, t, cs) ← pair? steps levels cs
    let ms ← before.put? key.last t key.way
    match skipSpaces cs with
    | ',' :: cs => pairs? steps levels ms (skipSpaces cs)
    | '\x7d' :: cs => return (.table .value ms, cs)
    | _ => none

/-- A key and its value. -/
def pair? : (steps levels : Nat) → List Char → Option (Key × Toml × List Char)
  | 0, _, _ => none
  | steps + 1, levels, cs => do
    let (key, cs) ← key? cs
    match cs with
    | '=' :: cs =>
      let (t, cs) ← value? steps levels (skipSpaces cs)
      return (key, t, cs)
    | _ => none

end

/-! ## Documents -/

/-- Reads lines into a document. Keys count from the table of the last header. -/
def lines? (size : Nat) :
    (steps : Nat) → (header : List String) → Members → List Char → Option Members
  | 0, _, _, _ => none
  | steps + 1, header, ms, cs =>
    match skipSpaces cs with
    | [] => some ms
    | c :: cs =>
      if c = '\n' || c = '#' then do
        lines? size steps header ms (← endLine? (c :: cs))
      else if c = '[' then do
        let (key, cs) ← key? (skipSpaces cs)
        match cs with
        | ']' :: cs =>
          lines? size steps (key.way ++ [key.last]) (← ms.enter? key.last key.way) (← endLine? cs)
        | _ => none
      else do
        let (key, t, cs) ← pair? size (maxLevels - 1) (c :: cs)
        lines? size steps header (← ms.within? (Members.put? key.last t key.way) header)
          (← endLine? cs)

/-- The document that a text stands for. A byte order mark in front is passed over. -/
def parse? (text : String) : Option Toml :=
  let cs := joinLineEnds text.toList
  let cs := if cs.head? = some '\ufeff' then cs.tail else cs
  (lines? (3 * cs.length + 3) (cs.length + 1) [] [] cs).map (.table .header)

end Cutpoint.Toml
