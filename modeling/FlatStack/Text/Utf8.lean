/-!
# Text and bytes

A sequence of bytes that was cut short may end inside a character. All else
of it is text.
-/

set_option autoImplicit false

namespace FlatStack

/-- The bytes of a text in UTF-8. -/
def bytesOf (text : String) : List UInt8 := text.toUTF8.data.toList

/-- The text of bytes in UTF-8; `none` if they are no text. -/
def textOf? (bytes : List UInt8) : Option String := String.fromUTF8? ⟨bytes.toArray⟩

/-- The most bytes that a character can lack. -/
def longestStub : Nat := 3

/-- The text of bytes that may be cut short: a character that is not complete
at the end shows as the replacement character. -/
def textOfCut (bytes : List UInt8) : String :=
  let attempt (n : Nat) : Option String :=
    (textOf? (bytes.take (bytes.length - n))).map fun text =>
      if n = 0 then text else text ++ "\uFFFD"
  ((List.range (longestStub + 1)).findSome? attempt).getD ""

end FlatStack
