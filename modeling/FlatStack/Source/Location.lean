/-!
# Places in a source text

Offsets count the bytes of the UTF-8 form, lines and columns count from one,
and a column counts characters.
-/

set_option autoImplicit false

namespace FlatStack

/-- The number of bytes that a list of characters takes in UTF-8. -/
def byteLength (cs : List Char) : Nat := cs.foldr (fun c length => c.utf8Size + length) 0

/-- The bytes from `start` up to `stop`, which is not included. -/
structure Span where
  start : Nat
  stop : Nat
  deriving DecidableEq, Repr

namespace Span

def length (s : Span) : Nat := s.stop - s.start

def isEmpty (s : Span) : Bool := s.start == s.stop

end Span

structure Location where
  line : Nat
  column : Nat
  deriving DecidableEq, Repr

namespace Location

/-- The place of the first character. -/
def origin : Location := ⟨1, 1⟩

/-- The place after a character. -/
def advance (l : Location) (c : Char) : Location :=
  if c = '\n' then ⟨l.line + 1, 1⟩ else ⟨l.line, l.column + 1⟩

/-- The place after a whole text. -/
def after (cs : List Char) : Location := cs.foldl advance origin

/-- The place `offset` bytes into the text that starts at `l`; `none` when the
offset is inside a character or past the end. -/
def seek? (l : Location) : List Char → Nat → Option Location
  | _, 0 => some l
  | [], _ + 1 => none
  | c :: cs, n + 1 =>
    if c.utf8Size ≤ n + 1 then seek? (l.advance c) cs (n + 1 - c.utf8Size) else none

/-- The place of a byte offset. An offset that is no character boundary counts
as the end of the text. -/
def ofOffset (source : List Char) (offset : Nat) : Location :=
  (origin.seek? source offset).getD (after source)

def text (l : Location) : String := toString l.line ++ ":" ++ toString l.column

end Location

/-- The place where a span starts. -/
def Span.location (source : List Char) (s : Span) : Location :=
  Location.ofOffset source s.start

end FlatStack
