import Cutpoint.Basic

/-!
# S-expressions

Scripts for a solver and its replies are made of s-expressions.

* `SExp.render` writes one with single blanks between the items of a list; atoms are kept as they
  are written, with their bars or quotes.
* `SExp.scan` cuts a text into tokens, going through the characters once. A semicolon between tokens
  starts a comment that ends with the line. A bar or a double quote between tokens starts an atom
  that ends with the same mark; any other atom goes on to the next blank or parenthesis.
* `SExp.build` puts the tokens together, with the lists that are still open on a stack.
-/

set_option autoImplicit false

namespace Cutpoint

inductive SExp where
  | atom (text : String)
  | list (items : List SExp)
  deriving Inhabited

namespace SExp

mutual

def render : SExp → String
  | atom s => s
  | list es => "(" ++ " ".intercalate (renders es) ++ ")"

def renders : List SExp → List String
  | [] => []
  | e :: es => e.render :: renders es

end

/-- A list that starts with the given word. -/
def app (head : String) (args : List SExp) : SExp := list (atom head :: args)

/-! ## Reading -/

/-- Why a text is no sequence of s-expressions. -/
inductive ReadError where
  /-- A closing parenthesis that closes nothing. -/
  | strayClose
  /-- A list that is never closed. -/
  | missingClose
  /-- An atom in bars or quotes that is never closed. -/
  | unterminated (mark : Char)
  deriving DecidableEq, Inhabited

def ReadError.message : ReadError → String
  | strayClose => "unbalanced ')'"
  | missingClose => "unbalanced '(' in solver output"
  | unterminated c => "unterminated " ++ String.singleton c ++ " in solver output"

inductive Token where
  | open
  | close
  | atom (text : String)
  /-- The text ends inside an atom that was opened with this mark. -/
  | unterminated (mark : Char)
  deriving DecidableEq, Inhabited

/-- Where in the text the scanner stands. What was read of an atom is kept in reverse. -/
inductive Mode where
  | between
  | comment
  | quoted (mark : Char) (read : List Char)
  | word (read : List Char)

/-- Cuts a text into tokens. -/
def scan : Mode → List Char → List Token
  | .between, [] => []
  | .comment, [] => []
  | .quoted m _, [] => [.unterminated m]
  | .word w, [] => [.atom (String.ofList w.reverse)]
  | .between, c :: cs =>
    if c = '(' then .open :: scan .between cs
    else if c = ')' then .close :: scan .between cs
    else if c = ';' then scan .comment cs
    else if isBlank c then scan .between cs
    else if c = '|' || c = '"' then scan (.quoted c [c]) cs
    else scan (.word [c]) cs
  | .comment, c :: cs => if c = '\n' then scan .between cs else scan .comment cs
  | .quoted m w, c :: cs =>
    if c = m then .atom (String.ofList (c :: w).reverse) :: scan .between cs
      else scan (.quoted m (c :: w)) cs
  | .word w, c :: cs =>
    if c = '(' then .atom (String.ofList w.reverse) :: .open :: scan .between cs
    else if c = ')' then .atom (String.ofList w.reverse) :: .close :: scan .between cs
    else if isBlank c then .atom (String.ofList w.reverse) :: scan .between cs
    else scan (.word (c :: w)) cs

/-- Puts tokens together: `items` are those of the innermost open list, `outer` those of the lists
around it, all in reverse. -/
def build :
    (outer : List (List SExp)) → (items : List SExp) → List Token → Except ReadError (List SExp)
  | [], items, [] => .ok items.reverse
  | _ :: _, _, [] => .error .missingClose
  | outer, items, .open :: ts => build (items :: outer) [] ts
  | [], _, .close :: _ => .error .strayClose
  | parent :: outer, items, .close :: ts => build outer (list items.reverse :: parent) ts
  | outer, items, .atom s :: ts => build outer (atom s :: items) ts
  | _, _, .unterminated m :: _ => .error (.unterminated m)

/-- Reads a text as a sequence of s-expressions. -/
def parse (text : String) : Except ReadError (List SExp) := build [] [] (scan .between text.toList)

end SExp

end Cutpoint
