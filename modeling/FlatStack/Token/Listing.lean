import FlatStack.Token.Basic

/-!
# Token listings

One line for each token: its place, its kind and the text it was read from.
-/

set_option autoImplicit false

namespace FlatStack.Token

/-- What follows the first `n` bytes. -/
def dropBytes : Nat → List Char → List Char
  | _, [] => []
  | n, c :: cs => if n = 0 then c :: cs else dropBytes (n - c.utf8Size) cs

/-- The characters that start within the first `n` bytes. -/
def takeBytes : Nat → List Char → List Char
  | _, [] => []
  | n, c :: cs => if n = 0 then [] else c :: takeBytes (n - c.utf8Size) cs

/-- The text of a span. -/
def slice (source : List Char) (s : Span) : List Char :=
  takeBytes s.length (dropBytes s.start source)

def listingLine (source : List Char) (t : Token) : String :=
  (t.span.location source).text ++ " " ++ t.kind.inspect ++ " '"
    ++ String.ofList (slice source t.span) ++ "'\n"

def listing (source : List Char) (tokens : List Token) : String :=
  String.join (tokens.map (listingLine source))

end FlatStack.Token
