import Cutpoint.Basic

/-!
# Writing TOML

Strings and arrays as they stand after the equals sign. A string takes the first of these forms that
holds it without escapes: one line in double quotes, one line in single quotes, several lines in
double quotes, several lines in single quotes. Only a string that fits none of them is written with
escapes.
-/

set_option autoImplicit false

namespace Cutpoint.Toml

/-- The length of the longest run of a character, counting from the length of the run so far. -/
def longestRun (c : Char) : (run : Nat) → List Char → Nat
  | run, [] => run
  | run, d :: cs => if d = c then longestRun c (run + 1) cs else max run (longestRun c 0 cs)

/-- A control character that needs an escape everywhere. -/
def isControl (c : Char) : Bool := (c < ' ' && c ≠ '\t' && c ≠ '\n') || c = '\x7f'

/-- An upper-case hexadecimal digit. -/
def hexDigit (n : Nat) : Char := Char.ofNat (if n < 10 then n + 48 else n + 55)

/-- The escape of a control character, a backslash or a quote. -/
def escaped (c : Char) : List Char :=
  if c = '\x08' then ['\\', 'b']
  else if c = '\t' then ['\\', 't']
  else if c = '\n' then ['\\', 'n']
  else if c = '\x0c' then ['\\', 'f']
  else if c = '\r' then ['\\', 'r']
  else if c = '"' || c = '\\' then ['\\', c]
  else ['\\', 'u', '0', '0', hexDigit (c.toNat / 16), hexDigit (c.toNat % 16)]

/-- The characters between double quotes, after a run of quotes. Long strings keep line ends and up
to two quotes in a row. -/
def escapeAll (long : Bool) : (run : Nat) → List Char → List Char
  | _, [] => []
  | run, c :: cs =>
    if c = '"' then
      if long && run < 2 then c :: escapeAll long (run + 1) cs else escaped c ++ escapeAll long 0 cs
    else if (c = '\n' && !long) || c = '\t' || c = '\\' || isControl c then escaped c ++
      escapeAll long 0 cs
    else c :: escapeAll long 0 cs

/-- Text of several lines starts on a line of its own. -/
def opening (long : Bool) (cs : List Char) : String := if long && cs.contains '\n' then "\n" else ""

def basicText (long : Bool) (cs : List Char) : String :=
  let quotes := if long then "\"\"\"" else "\""
  quotes ++ opening long cs ++ String.ofList (escapeAll long 0 cs) ++ quotes

def literalText (long : Bool) (cs : List Char) : String :=
  let quotes := if long then "'''" else "'"
  quotes ++ opening long cs ++ String.ofList cs ++ quotes

def stringText (s : String) : String :=
  let cs := s.toList
  let control := cs.any isControl
  let backslash := cs.contains '\\'
  let newline := cs.contains '\n'
  let single := longestRun '\'' 0 cs
  let double := longestRun '"' 0 cs
  if !control && !backslash && double = 0 && !newline then basicText false cs
  else if !control && single = 0 && !newline then literalText false cs
  else if !control && !backslash && double ≤ 2 then basicText true cs
  else if !control && single ≤ 2 then literalText true cs
  else basicText newline cs

/-- An array of strings; with more than one, each has a line of its own. -/
def arrayText (ss : List String) : String :=
  match ss with
  | [] => "[]"
  | [s] => "[" ++ stringText s ++ "]"
  | ss => "[\n" ++ String.join (ss.map fun s => "    " ++ stringText s ++ ",\n") ++ "]"

end Cutpoint.Toml
