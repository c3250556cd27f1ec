/-!
# Numbers and texts

* `Word64.Signed`, `Word64.Unsigned`: integers are exact everywhere; these are the ranges within
  which some of them have to be;
* `natText`, `intText`, `boolText`, `commaList`: decimal numbers, truth values and joined lists, as
  every printer of the project writes them;
* `isBlank` is the white space of Unicode; `trim` takes it off both ends of a text.
-/

set_option autoImplicit false

namespace Cutpoint

/-! ## Numbers of 64 bits -/

namespace Word64

/-- Fits into 64 bits with a sign. -/
abbrev Signed (n : Int) : Prop := -9223372036854775808 ≤ n ∧ n < 9223372036854775808

/-- Fits into 64 bits without a sign. -/
abbrev Unsigned (n : Int) : Prop := 0 ≤ n ∧ n < 18446744073709551616

end Word64

/-! ## Text of numbers and lists -/

/-- The decimal text of a natural number. -/
def natText (n : Nat) : String := Nat.repr n

/-- The decimal text of an integer. -/
def intText : Int → String
  | .ofNat n => natText n
  | .negSucc n => "-" ++ natText (n + 1)

/-- The text of a truth value. -/
def boolText (b : Bool) : String := if b then "true" else "false"

/-- Texts with a comma and a blank between them. -/
def commaList (texts : List String) : String := ", ".intercalate texts

/-! ## Blanks -/

/-- Whether a character is white space. -/
def isBlank (c : Char) : Bool :=
  let n := c.toNat
  (9 ≤ n && n ≤ 13) || n == 0x20 || n == 0x85 || n == 0xA0 || n == 0x1680 ||
    (0x2000 ≤ n && n ≤ 0x200A) ||
    n == 0x2028 || n == 0x2029 || n == 0x202F || n == 0x205F || n == 0x3000

/-- The text without the blanks at its ends. -/
def trim (s : String) : String :=
  String.ofList ((s.toList.dropWhile isBlank).reverse.dropWhile isBlank).reverse

/-- Whether the characters `w` stand somewhere in a list, next to each other. -/
def occursIn (w : List Char) : List Char → Bool
  | [] => w.isEmpty
  | c :: cs => w.isPrefixOf (c :: cs) || occursIn w cs

end Cutpoint
