import FlatStack.Text.Utf8

/-!
# The console

A console is the input that is still unread and the output written so far,
both as bytes. The output is kept with its latest byte first. The console may
have room for a limited number of bytes only. A write that needs more keeps
what fits and fails.
-/

set_option autoImplicit false

namespace FlatStack

structure Console where
  input : List UInt8
  /-- What is written, the latest byte first. -/
  output : List UInt8 := []
  /-- The bytes that may still be written, if they are limited. -/
  room : Option Nat := none
  deriving DecidableEq, Repr

inductive ConsoleError where
  | full
  | invalidText
  deriving DecidableEq, Repr

def ConsoleError.message : ConsoleError → String
  | .full => "console full"
  | .invalidText => "stream did not contain valid UTF-8"

namespace Console

def newline : UInt8 := 10

/-- The first line with its newline, and what follows it. -/
def splitLine (bytes : List UInt8) : List UInt8 × List UInt8 :=
  match bytes.span (· != newline) with
  | (line, []) => (line, [])
  | (line, b :: rest) => (line ++ [b], rest)

/-- What is written, in order. -/
def written (c : Console) : List UInt8 := c.output.reverse

/-- Writes a text. The flag tells whether all of it found room. -/
def write (c : Console) (text : String) : Console × Bool :=
  let bytes := bytesOf text
  match c.room with
  | none => ({ c with output := bytes.reverseAux c.output }, true)
  | some room =>
    ({ c with
        output := (bytes.take room).reverseAux c.output
        room := some (room - bytes.length) },
      decide (bytes.length ≤ room))

/-- Takes one line off the input; `none` when there is no input left. The line
is gone even if it is no text. -/
def readLine (c : Console) : Option (Except ConsoleError String) × Console :=
  if c.input.isEmpty then (none, c)
  else
    let (line, rest) := splitLine c.input
    let text := match textOf? line with
      | some text => .ok text
      | none => .error .invalidText
    (some text, { c with input := rest })

end Console

end FlatStack
