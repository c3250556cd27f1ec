import Cutpoint.Json.Basic

/-!
# Reading JSON text

The text is cut into tokens, and the tokens are read by descent.

* `Json.tokens` is a machine that goes through the characters once.
* `Json.parseValue` reads one value from the front of the tokens; a bound on the number of steps is
  the number of tokens.
* `Json.parse?` accepts a text that is one value with blanks around it: no comments, no commas
  before a closing bracket, no control characters in strings, no zeros before a number.
-/

set_option autoImplicit false

namespace Cutpoint.Json

/-! ## Strings -/

/-- A part of a string: a character as such or as a short escape, or the 16-bit unit of a long
escape. -/
inductive Piece where
  | char (c : Char)
  | unit (u : Nat)

def isHighSurrogate (u : Nat) : Bool := 0xD800 ≤ u && u < 0xDC00

def isLowSurrogate (u : Nat) : Bool := 0xDC00 ≤ u && u < 0xE000

/-- The text that the parts spell, unless a surrogate stands alone. -/
def spell? : List Piece → Option (List Char)
  | [] => some []
  | .char c :: ps => (spell? ps).map (c :: ·)
  | .unit u :: ps =>
    if isHighSurrogate u then
      match ps with
      | .unit l :: ps' =>
        if isLowSurrogate l then
          (spell? ps').map (Char.ofNat (0x10000 + (u - 0xD800) * 0x400 + (l - 0xDC00)) :: ·)
        else none
      | _ => none
    else if isLowSurrogate u then none
    else (spell? ps).map (Char.ofNat u :: ·)

def hexValue? (c : Char) : Option Nat :=
  if '0' ≤ c && c ≤ '9' then some (c.toNat - 48)
  else if 'a' ≤ c && c ≤ 'f' then some (c.toNat - 87)
  else if 'A' ≤ c && c ≤ 'F' then some (c.toNat - 55)
  else none

/-- The character of a short escape. -/
def shortEscape? (c : Char) : Option Char :=
  if c = '"' || c = '\\' || c = '/' then some c
  else if c = 'b' then some '\x08'
  else if c = 'f' then some '\x0c'
  else if c = 'n' then some '\n'
  else if c = 'r' then some '\r'
  else if c = 't' then some '\t'
  else none

/-! ## Numbers and words -/

def isDigit (c : Char) : Bool := '0' ≤ c && c ≤ '9'

/-- The number that decimal digits stand for, after those already read. -/
def digitsValue (n : Nat) : List Char → Nat
  | [] => n
  | c :: cs => digitsValue (n * 10 + (c.toNat - 48)) cs

/-- Whether the characters are an exponent, or nothing. -/
def isExponent : List Char → Bool
  | [] => true
  | e :: cs =>
    (e = 'e' || e = 'E') &&
      match cs with
      | s :: ds =>
        if s = '+' || s = '-' then !ds.isEmpty && ds.all isDigit else (s :: ds).all isDigit
      | [] => false

/-- Whether the characters are a fraction and an exponent, or one of both, or nothing. -/
def isTail : List Char → Bool
  | '.' :: cs => !(cs.takeWhile isDigit).isEmpty && isExponent (cs.dropWhile isDigit)
  | cs => isExponent cs

/-- A number without sign: the integer, or `none` if it has a fraction or exponent. -/
def unsigned? (cs : List Char) : Option (Option Nat) :=
  let digits := cs.takeWhile isDigit
  let rest := cs.dropWhile isDigit
  if digits.isEmpty || (digits.head? == some '0' && digits.length != 1) || !isTail rest then none
  else some (if rest.isEmpty then some (digitsValue 0 digits) else none)

/-- A number. -/
def number? : List Char → Option Json
  | '-' :: cs =>
    match unsigned? cs with
    | some (some 0) => some real
    | some (some n) => some (int (-(n : Int)))
    | some none => some real
    | none => none
  | cs =>
    match unsigned? cs with
    | some (some n) => some (int n)
    | some none => some real
    | none => none

/-- A literal or number. -/
def word? (cs : List Char) : Option Json :=
  if cs = ['n', 'u', 'l', 'l'] then some null
  else if cs = ['t', 'r', 'u', 'e'] then some (bool true)
  else if cs = ['f', 'a', 'l', 's', 'e'] then some (bool false)
  else number? cs

/-! ## Tokens -/

inductive Token where
  | openArr
  | closeArr
  | openObj
  | closeObj
  | comma
  | colon
  | str (text : Option String)
  | word (value : Json)

def isBlank (c : Char) : Bool := c = ' ' || c = '\t' || c = '\n' || c = '\r'

/-- The token of a punctuation mark. -/
def mark? (c : Char) : Option Token :=
  if c = '[' then some .openArr
  else if c = ']' then some .closeArr
  else if c = '\x7b' then some .openObj
  else if c = '\x7d' then some .closeObj
  else if c = ',' then some .comma
  else if c = ':' then some .colon
  else none

/-- Where in the text the machine stands. What was read of a word or string is kept in reverse. -/
inductive Mode where
  | between
  | word (read : List Char)
  | string (read : List Piece)
  | escape (read : List Piece)
  /-- In a long escape, with the digits still to come and the value so far. -/
  | hex (read : List Piece) (left : Nat) (value : Nat)

/-- Cuts the text into tokens. -/
def tokens : Mode → List Char → Option (List Token)
  | .between, [] => some []
  | .word w, [] => (word? w.reverse).map fun j => [.word j]
  | .string _, [] => none
  | .escape _, [] => none
  | .hex _ _ _, [] => none
  | .between, c :: cs =>
    if isBlank c then tokens .between cs
    else if c = '"' then tokens (.string []) cs
    else
      match mark? c with
      | some t => (tokens .between cs).map (t :: ·)
      | none => tokens (.word [c]) cs
  | .word w, c :: cs =>
    if isBlank c then
      match word? w.reverse, tokens .between cs with
      | some j, some ts => some (.word j :: ts)
      | _, _ => none
    else if c = '"' then none
    else
      match mark? c with
      | some t =>
        match word? w.reverse, tokens .between cs with
        | some j, some ts => some (.word j :: t :: ts)
        | _, _ => none
      | none => tokens (.word (c :: w)) cs
  | .string ps, c :: cs =>
    if c = '"' then (tokens .between cs).map (.str ((spell? ps.reverse).map String.ofList) :: ·)
    else if c = '\\' then tokens (.escape ps) cs
    else if c.toNat < 32 then none
    else tokens (.string (.char c :: ps)) cs
  | .escape ps, c :: cs =>
    if c = 'u' then tokens (.hex ps 4 0) cs
    else
      match shortEscape? c with
      | some d => tokens (.string (.char d :: ps)) cs
      | none => none
  | .hex ps left v, c :: cs =>
    match hexValue? c with
    | none => none
    | some d =>
      if left ≤ 1 then tokens (.string (.unit (v * 16 + d) :: ps)) cs
      else tokens (.hex ps (left - 1) (v * 16 + d)) cs

/-! ## Values -/

mutual

/-- Reads a value from the front of the tokens and returns what is left of them. -/
def parseValue : (fuel : Nat) → List Token → Option (Json × List Token)
  | 0, _ => none
  | _ + 1, [] => none
  | fuel + 1, t :: ts =>
    match t with
    | .word j => some (j, ts)
    | .str s => some (str s, ts)
    | .openArr =>
      match ts with
      | .closeArr :: ts' => some (arr [], ts')
      | _ => (parseItems fuel ts).map fun r => (arr r.1, r.2)
    | .openObj =>
      match ts with
      | .closeObj :: ts' => some (obj [], ts')
      | _ => (parseMembers fuel ts).map fun r => (obj r.1, r.2)
    | _ => none

/-- Reads the items of an array and its closing bracket. -/
def parseItems : (fuel : Nat) → List Token → Option (List Json × List Token)
  | 0, _ => none
  | fuel + 1, ts =>
    match parseValue fuel ts with
    | some (j, .comma :: ts') => (parseItems fuel ts').map fun r => (j :: r.1, r.2)
    | some (j, .closeArr :: ts') => some ([j], ts')
    | _ => none

/-- Reads the members of an object and its closing brace. -/
def parseMembers : (fuel : Nat) → List Token → Option (List (Option String × Json) × List Token)
  | 0, _ => none
  | fuel + 1, ts =>
    match ts with
    | .str k :: .colon :: ts' =>
      match parseValue fuel ts' with
      | some (j, .comma :: rest) => (parseMembers fuel rest).map fun r => ((k, j) :: r.1, r.2)
      | some (j, .closeObj :: rest) => some ([(k, j)], rest)
      | _ => none
    | _ => none

end

/-- Reads a text that is one JSON value. -/
def parse? (text : String) : Option Json :=
  match tokens .between text.toList with
  | none => none
  | some ts =>
    match parseValue (2 * ts.length + 1) ts with
    | some (j, []) => some j
    | _ => none

end Cutpoint.Json
