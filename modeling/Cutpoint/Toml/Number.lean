import Cutpoint.Json.Reader
import Cutpoint.Toml.Basic
import Cutpoint.Basic

/-!
# Numbers and words of TOML

A number is an integer of 64 bits with a sign, in one of four bases, or has a fraction or an
exponent. The latter has to be within the range of a double: one that would be rounded to the
positive infinity is refused, while a negative one is not.
-/

set_option autoImplicit false

namespace Cutpoint.Toml

/-! ## Digits -/

/-- Digits, with single underscores between them; the underscores are left out. -/
def digits? (isDigit : Char → Bool) : (afterDigit : Bool) → List Char → Option (List Char)
  | afterDigit, [] => if afterDigit then some [] else none
  | afterDigit, c :: cs =>
    if c = '_' then if afterDigit then digits? isDigit false cs else none
    else if isDigit c then (digits? isDigit true cs).map (c :: ·)
    else none

/-- The number that digits stand for. -/
def ofDigits (base : Nat) (cs : List Char) : Nat :=
  cs.foldl (fun n c => n * base + (Json.hexValue? c).getD 0) 0

/-- Whether decimal digits have no zero to spare in front. -/
def noLeadingZero (cs : List Char) : Bool := cs.length ≤ 1 || cs.head? ≠ some '0'

/-- A sign, and what follows it. -/
def sign : List Char → Int × List Char
  | '+' :: cs => (1, cs)
  | '-' :: cs => (-1, cs)
  | cs => (1, cs)

/-! ## Integers -/

/-- An integer that fits into 64 bits with a sign. -/
def int? (cs : List Char) : Option Int := do
  let n ← match cs with
    | '0' :: 'x' :: ds => (digits? Char.isHexDigit false ds).map fun ds => (ofDigits 16 ds : Int)
    | '0' :: 'o' :: ds =>
      (digits? (fun c => '0' ≤ c && c ≤ '7') false ds).map fun ds => (ofDigits 8 ds : Int)
    | '0' :: 'b' :: ds =>
      (digits? (fun c => c = '0' || c = '1') false ds).map fun ds => (ofDigits 2 ds : Int)
    | _ => do
      let ds ← digits? Char.isDigit false (sign cs).2
      if noLeadingZero (sign cs).2 then some ((sign cs).1 * ofDigits 10 ds) else none
  if Word64.Signed n then some n else none

/-! ## Decimal fractions -/

/-- A number in decimal: its digits, and the power of ten that the last of them counts. -/
structure Decimal where
  digits : List Char
  power : Int

namespace Decimal

/-- The exponent after its letter. -/
def exponent? : List Char → Option Int
  | [] => none
  | e :: cs =>
    if e = 'e' || e = 'E' then (digits? Char.isDigit false (sign cs).2).map fun ds => (sign cs).1 *
      ofDigits 10 ds else none

/-- A number without sign that has a fraction, an exponent or both. -/
def of? (cs : List Char) : Option Decimal := do
  let inDigits := fun c : Char => c.isDigit || c = '_'
  let whole := cs.takeWhile inDigits
  let ds ← digits? Char.isDigit false whole
  if !noLeadingZero whole then none
  else
    match cs.dropWhile inDigits with
    | '.' :: tail =>
      let fs ← digits? Char.isDigit false (tail.takeWhile inDigits)
      match tail.dropWhile inDigits with
      | [] => return ⟨ds ++ fs, -fs.length⟩
      | ex => return ⟨ds ++ fs, (← exponent? ex) - fs.length⟩
    | ex => return ⟨ds, ← exponent? ex⟩

/-- The least number that is rounded to infinity. It lies halfway between the greatest double and
the next power of two. -/
def infinityFrom : Nat := (Nat.pow 2 54 - 1) * Nat.pow 2 970

/-- Whether the number is rounded to infinity. The position of the first digit decides, unless it is
that of `infinityFrom`. -/
def isInfinite (d : Decimal) : Bool :=
  let ds := d.digits.dropWhile (· = '0')
  let top := ds.length + d.power
  if ds.isEmpty || top < 309 then false
  else if 309 < top then true
  else infinityFrom * Nat.pow 10 (-d.power).toNat ≤ ofDigits 10 ds * Nat.pow 10 d.power.toNat

end Decimal

/-- Whether the characters are a number with a fraction or an exponent, or one of the words for what
is no such number. -/
def isFloat (cs : List Char) : Bool :=
  let (s, cs) := sign cs
  cs = ['i', 'n', 'f'] || cs = ['n', 'a', 'n'] ||
    match Decimal.of? cs with
    | some d => s < 0 || !d.isInfinite
    | none => false

/-- A value that is written as one word. -/
def word? (cs : List Char) : Option Toml :=
  if cs = ['t', 'r', 'u', 'e'] then some (.bool true)
  else if cs = ['f', 'a', 'l', 's', 'e'] then some (.bool false)
  else
    match int? cs with
    | some n => some (.int n)
    | none => if isFloat cs then some .float else none

end Cutpoint.Toml
