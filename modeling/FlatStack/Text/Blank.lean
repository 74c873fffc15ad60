/-!
# Blank text, words and lines

Everything here works on lists of characters. A blank is a character with the
Unicode property White_Space, which is wider than the ASCII blanks and does
not hold the zero-width space or the byte order mark.
-/

set_option autoImplicit false

namespace FlatStack.Text

/-- The 25 code points with the property White_Space. -/
def isBlank (c : Char) : Bool :=
  let n := c.toNat
  (0x09 ≤ n && n ≤ 0x0D) || n == 0x20 || n == 0x85 || n == 0xA0 || n == 0x1680
    || (0x2000 ≤ n && n ≤ 0x200A) || n == 0x2028 || n == 0x2029 || n == 0x202F
    || n == 0x205F || n == 0x3000

/-- What is left after the blanks at both ends. -/
def trim (cs : List Char) : List Char :=
  ((cs.dropWhile isBlank).reverse.dropWhile isBlank).reverse

/-- The leading run without blanks, and what follows it. -/
def splitWord (cs : List Char) : List Char × List Char :=
  cs.span (fun c => !isBlank c)

/-- The first word, blanks before it skipped; `none` when all is blank. -/
def firstWord? (cs : List Char) : Option (List Char) :=
  match cs.dropWhile isBlank with
  | [] => none
  | c :: rest => some (splitWord (c :: rest)).1

/-- A line end may be written with a carriage return before the newline. The
argument is a line read so far, last character first. -/
def dropReturn : List Char → List Char
  | '\r' :: line => line
  | line => line

/-- `line` holds the characters since the last newline, last one first. -/
def linesFrom : List Char → List Char → List (List Char)
  | [], [] => []
  | line, [] => [line.reverse]
  | line, '\n' :: cs => (dropReturn line).reverse :: linesFrom [] cs
  | line, c :: cs => linesFrom (c :: line) cs

/-- The lines of a text. Nothing after the last newline is no line, and a
carriage return at the very end belongs to its line. -/
def lines (cs : List Char) : List (List Char) := linesFrom [] cs

end FlatStack.Text
