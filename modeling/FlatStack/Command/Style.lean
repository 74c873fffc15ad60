/-!
# Terminal styles

A style wraps a text in escape sequences: one that begins it and one that
ends its kind of style.
-/

set_option autoImplicit false

namespace FlatStack.Style

def wrap (opening closing : Nat) (text : String) : String :=
  "\x1b[" ++ toString opening ++ "m" ++ text ++ "\x1b[" ++ toString closing ++ "m"

def bold : String → String := wrap 1 0
def dimmed : String → String := wrap 2 0

def red : String → String := wrap 31 39
def green : String → String := wrap 32 39
def yellow : String → String := wrap 33 39
def cyan : String → String := wrap 36 39
def white : String → String := wrap 37 39
def brightYellow : String → String := wrap 93 39
def brightCyan : String → String := wrap 96 39

/-- How every error message to the user begins. -/
def errorLabel : String := bold (red "Error")

end FlatStack.Style
