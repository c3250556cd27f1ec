import Cutpoint.Json.Basic
import Cutpoint.Basic

/-!
# Compact JSON text

`Json.render` writes a value without blanks, object members in their order. In strings only the
quote, the backslash and the control characters below a blank are escaped.
-/

set_option autoImplicit false

namespace Cutpoint.Json

/-- The lower-case hexadecimal digit of a number below 16. -/
def hexDigit (n : Nat) : Char := if n < 10 then Char.ofNat (48 + n) else Char.ofNat (87 + n)

/-- The characters that stand for `c` inside a string. -/
def escapeChar (c : Char) : List Char :=
  if c = '"' then ['\\', '"']
  else if c = '\\' then ['\\', '\\']
  else if c = '\x08' then ['\\', 'b']
  else if c = '\t' then ['\\', 't']
  else if c = '\n' then ['\\', 'n']
  else if c = '\x0c' then ['\\', 'f']
  else if c = '\r' then ['\\', 'r']
  else if c.toNat < 32 then ['\\', 'u', '0', '0', hexDigit (c.toNat / 16), hexDigit (c.toNat % 16)]
  else [c]

/-- A string with its quotes. -/
def quote (s : String) : String := String.ofList ('"' :: (s.toList.flatMap escapeChar ++ ['"']))

mutual

/-- The text of a value. What is no text or no integer has no spelling of its own and is written as
`null`. -/
def render : Json → String
  | null => "null"
  | bool true => "true"
  | bool false => "false"
  | int n => intText n
  | real => "null"
  | str none => "null"
  | str (some s) => quote s
  | arr js => "[" ++ ",".intercalate (renderItems js) ++ "]"
  | obj ms => "\x7b" ++ ",".intercalate (renderMembers ms) ++ "\x7d"

def renderItems : List Json → List String
  | [] => []
  | j :: js => j.render :: renderItems js

def renderMembers : List (Option String × Json) → List String
  | [] => []
  | (k, j) :: ms => (quote (k.getD "") ++ ":" ++ j.render) :: renderMembers ms

end

end Cutpoint.Json
