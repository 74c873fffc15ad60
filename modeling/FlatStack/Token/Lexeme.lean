import FlatStack.Decimal.Reader
import FlatStack.Text.Blank
import FlatStack.Token.Basic

/-!
# Lexemes

A source text is a sequence of gaps and lexemes in turn. Each step measures,
in characters, how long the next gap or lexeme is, so that what was read and
what is left make up the text again.
-/

set_option autoImplicit false

namespace FlatStack.Token

/-- Where a gap between tokens stands: among blanks, in a comment that ends
with its line, or in one that ends at a star and a slash. -/
inductive Gap where
  | blank
  | line
  | block (afterStar : Bool)
  deriving DecidableEq, Repr

/-- How many characters the gap at the front takes. A comment that never ends
takes all that is left. -/
def gapLength : Gap → List Char → Nat
  | .blank, '/' :: '/' :: cs => gapLength .line cs + 2
  | .blank, '/' :: '*' :: cs => gapLength (.block false) cs + 2
  | .blank, c :: cs => if Text.isBlank c then gapLength .blank cs + 1 else 0
  | .line, '\n' :: cs => gapLength .blank cs + 1
  | .line, _ :: cs => gapLength .line cs + 1
  | .block true, '/' :: cs => gapLength .blank cs + 1
  | .block _, c :: cs => gapLength (.block (c == '*')) cs + 1
  | _, [] => 0

def isNameStart (c : Char) : Bool := c.isAlpha || c == '_'

def isNamePart (c : Char) : Bool := c.isAlphanum || c == '_'

/-- The fraction after the digits of a number: a point counts only with a
digit behind it. -/
def fraction : List Char → List Char
  | '.' :: d :: cs => if d.isDigit then '.' :: d :: cs.takeWhile Char.isDigit else []
  | _ => []

/-- The text of a number that starts with the digit `c`. -/
def numeral (c : Char) (cs : List Char) : List Char :=
  let digits := cs.takeWhile Char.isDigit
  c :: digits ++ fraction (cs.drop digits.length)

/-- The kind of a bare word. -/
def wordKind (word : String) : Kind :=
  match Keyword.ofWord? word with
  | some k => .keyword k
  | none => .identifier word

/-- A lexeme that a following `=` makes longer. -/
def orEqual (alone withEqual : Kind) : List Char → Kind × Nat
  | '=' :: _ => (withEqual, 2)
  | _ => (alone, 1)

/-- A lexeme of two characters, the first of which means nothing alone. -/
def pair (first second : Char) (kind : Kind) : List Char → Kind × Nat
  | c :: _ => if c = second then (kind, 2) else (.invalid first, 1)
  | [] => (.invalid first, 1)

/-- The kind and the length of the lexeme that starts with `c`. -/
def lexeme (c : Char) (cs : List Char) : Kind × Nat :=
  match c with
  | '{' => (.leftBrace, 1)
  | '}' => (.rightBrace, 1)
  | '(' => (.leftParen, 1)
  | ')' => (.rightParen, 1)
  | ';' => (.semicolon, 1)
  | ',' => (.comma, 1)
  | '.' => (.dot, 1)
  | '+' => (.plus, 1)
  | '-' => (.minus, 1)
  | '*' => (.star, 1)
  | '/' => (.slash, 1)
  | '<' =>
    if "?php".toList.isPrefixOf cs then (.openTag, 5)
    else orEqual (.relation .lt) (.relation .le) cs
  | '>' => orEqual (.relation .gt) (.relation .ge) cs
  | '=' => orEqual .assign (.relation .eq) cs
  | '!' => orEqual .bang (.relation .ne) cs
  | '&' => pair '&' '&' .andAnd cs
  | '|' => pair '|' '|' .orOr cs
  | '?' => pair '?' '>' .closeTag cs
  | '$' =>
    match cs with
    | d :: _ =>
      if isNameStart d then
        let name := cs.takeWhile isNamePart
        (.variable (String.ofList ('$' :: name)), name.length + 1)
      else (.invalid '$', 1)
    | [] => (.invalid '$', 1)
  | c =>
    if c.isDigit then
      let text := numeral c cs
      (.number ((Decimal.read? text).getD 0), text.length)
    else if isNameStart c then
      let word := c :: cs.takeWhile isNamePart
      (wordKind (String.ofList word), word.length)
    else (.invalid c, 1)

/-- The tokens of `cs`, which starts `offset` bytes into the source. The last
token is the end of the source, an empty one. -/
def scanFrom (offset : Nat) (cs : List Char) : List Token :=
  let gap := gapLength .blank cs
  let start := offset + byteLength (cs.take gap)
  match _h : cs.drop gap with
  | [] => [⟨.endOfSource, ⟨start, start⟩⟩]
  | c :: rest =>
    let (kind, length) := lexeme c rest
    let stop := start + byteLength ((c :: rest).take length)
    ⟨kind, ⟨start, stop⟩⟩ :: scanFrom stop (rest.drop (length - 1))
termination_by cs.length
decreasing_by
  have drop : (cs.drop gap).length = rest.length + 1 := by rw [_h]; rfl
  rw [List.length_drop] at drop
  rw [List.length_drop]
  omega

/-- All tokens of a source text, those of unknown characters included. -/
def scan (source : String) : List Token := scanFrom 0 source.toList

/-- A character that starts no token. -/
structure Unrecognized where
  character : Char
  location : Location
  deriving DecidableEq, Repr

/-- The first unknown character among tokens. -/
def unrecognized? (source : List Char) : List Token → Option Unrecognized
  | [] => none
  | ⟨.invalid c, span⟩ :: _ => some ⟨c, span.location source⟩
  | _ :: ts => unrecognized? source ts

/-- All tokens of a source text without unknown characters. -/
def scanAll (source : String) : Except Unrecognized (List Token) :=
  let tokens := scan source
  match unrecognized? source.toList tokens with
  | some u => .error u
  | none => .ok tokens

end FlatStack.Token
