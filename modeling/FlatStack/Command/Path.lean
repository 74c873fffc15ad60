/-!
# Paths

A path is a text with slashes between its parts. Empty parts and single dots
between slashes say nothing.
-/

set_option autoImplicit false

namespace FlatStack.Path

def isAbsolute (path : String) : Bool :=
  match path.toList with
  | '/' :: _ => true
  | _ => false

/-- Drops what says nothing from the end of a path, whose last character comes
first. -/
def dropIdle : List Char → List Char
  | '/' :: cs => dropIdle cs
  | '.' :: '/' :: cs => dropIdle cs
  | cs => cs

/-- The path without its last part: empty when there is just one, and when
there is none. -/
def parent (path : String) : String :=
  let reversed := dropIdle path.toList.reverse
  let rest := dropIdle (reversed.dropWhile (· != '/'))
  if rest.isEmpty && isAbsolute path && !reversed.isEmpty then "/" else String.ofList rest.reverse

/-- The second path seen from the first one. -/
def join (base path : String) : String :=
  if isAbsolute path || base.isEmpty then path
  else if base.toList.getLast? == some '/' then base ++ path
  else base ++ "/" ++ path

/-- One step of following a path: two dots lead back. -/
def follow (parts : List String) (part : String) : List String :=
  if part == "" || part == "." then parts
  else if part == ".." then parts.dropLast
  else parts ++ [part]

/-- The texts between slashes. The characters since the last slash are in
`part`, the last one first. -/
def piecesFrom : List Char → List Char → List String
  | part, [] => [String.ofList part.reverse]
  | part, '/' :: cs => String.ofList part.reverse :: piecesFrom [] cs
  | part, c :: cs => piecesFrom (c :: part) cs

/-- The parts of a path, counted from the working directory. -/
def parts (path : String) : List String := (piecesFrom [] path.toList).foldl follow []

/-- Whether a path can only name a directory. -/
def namesDirectory (path : String) : Bool := path.toList.getLast? == some '/'

end FlatStack.Path
