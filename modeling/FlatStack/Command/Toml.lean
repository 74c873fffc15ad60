/-!
# TOML

The part of TOML that settings are written in: keys, strings, booleans and
arrays. All other values are recognized but not looked at.
-/

set_option autoImplicit false

namespace FlatStack.Toml

inductive Value where
  | string (text : String)
  | boolean (value : Bool)
  | array (items : List Value)
  /-- A number, a date or a table. -/
  | other
  deriving Repr

/-- A value with the keys that lead to it. -/
abbrev Entry := List String × Value

abbrev Reader := StateT (List Char) Option

namespace Reader

def peek : Reader (Option Char) := fun cs => some (cs.head?, cs)

def skip (n : Nat) : Reader Unit := fun cs => some ((), cs.drop n)

def expect (text : String) : Reader Unit := fun cs =>
  if text.toList.isPrefixOf cs then some ((), cs.drop text.length) else none

/-- Whether the text comes next. -/
def sees (text : String) : Reader Bool := fun cs => some (text.toList.isPrefixOf cs, cs)

def takeWhile (p : Char → Bool) : Reader (List Char) := fun cs => some (cs.span p)

def blanks : Reader Unit := do
  let _ ← takeWhile fun c => c == ' ' || c == '\t'

/-- What is left after blanks, line ends and comments. -/
def afterGap : Bool → List Char → List Char
  | _, [] => []
  | true, c :: cs => afterGap (c != '\n') cs
  | false, c :: cs =>
    if c == '#' then afterGap true cs
    else if c == ' ' || c == '\t' || c == '\n' || c == '\r' then afterGap false cs
    else c :: cs

def gap : Reader Unit := fun cs => some ((), afterGap false cs)

/-- What a reader reads in turn until the list ends it, `n` times at most. -/
def manyUpTo {α : Type} (item : Reader (Option α)) : Nat → Reader (List α)
  | 0 => failure
  | n + 1 => do
    match ← item with
    | none => pure []
    | some first =>
      let others ← manyUpTo item n
      pure (first :: others)

def many {α : Type} (item : Reader (Option α)) : Reader (List α) := fun cs =>
  manyUpTo item (cs.length + 1) cs

/-! ## Strings -/

def hexValue? (ds : List Char) : Option Char :=
  let digit? (c : Char) : Option Nat :=
    if c.isDigit then some (c.toNat - '0'.toNat)
    else if 'a' ≤ c.toLower && c.toLower ≤ 'f' then some (c.toLower.toNat - 'a'.toNat + 10)
    else none
  (ds.mapM digit?).map fun ns => Char.ofNat (ns.foldl (fun n d => 16 * n + d) 0)

def escape? : Char → Option Char
  | 'b' => some '\x08'
  | 't' => some '\t'
  | 'n' => some '\n'
  | 'f' => some '\x0c'
  | 'r' => some '\r'
  | 'e' => some '\x1b'
  | '"' => some '"'
  | '\\' => some '\\'
  | _ => none

/-- A character of a string with escapes; `none` at a line end that a
backslash hides. -/
def escaped (lines : Bool) : Reader (Option Char) := do
  match ← peek with
  | none => failure
  | some '\\' =>
    skip 1
    match ← peek with
    | some 'u' =>
      skip 1
      digits 4
    | some 'U' =>
      skip 1
      digits 8
    | some c =>
      match escape? c with
      | some c =>
        skip 1
        pure (some c)
      | none =>
        if lines && (c == ' ' || c == '\t' || c == '\n' || c == '\r') then
          let _ ← takeWhile fun c => c == ' ' || c == '\t' || c == '\n' || c == '\r'
          pure none
        else failure
    | none => failure
  | some c =>
    if c == '\n' && !lines then failure
    else
      skip 1
      pure (some c)
where
  digits (n : Nat) : Reader (Option Char) := fun cs =>
    (hexValue? (cs.take n)).map fun c => (some c, cs.drop n)

/-- A character of a string without escapes. -/
def literal (lines : Bool) : Reader (Option Char) := do
  match ← peek with
  | none => failure
  | some c =>
    if c == '\n' && !lines then failure
    else
      skip 1
      pure (some c)

/-- The characters up to a closing mark. -/
def upTo (mark : String) (character : Reader (Option Char)) : Reader String := do
  let pieces ← many do
    if ← sees mark then
      expect mark
      pure none
    else
      some <$> character
  pure (String.ofList pieces.reduceOption)

/-- A line end right behind the opening of a string of several lines is not
part of it. -/
def firstLineEnd : Reader Unit := do
  if ← sees "\r\n" then skip 2
  else if ← sees "\n" then skip 1

def string : Reader String := do
  if ← sees "\"\"\"" then
    skip 3
    firstLineEnd
    upTo "\"\"\"" (escaped true)
  else if ← sees "'''" then
    skip 3
    firstLineEnd
    upTo "'''" (literal true)
  else if ← sees "\"" then
    skip 1
    upTo "\"" (escaped false)
  else
    expect "'"
    upTo "'" (literal false)

/-! ## Keys and values -/

def isBare (c : Char) : Bool := c.isAlphanum || c == '_' || c == '-'

def simpleKey : Reader String := do
  match ← peek with
  | some '"' | some '\'' => string
  | _ =>
    let name ← takeWhile isBare
    if name.isEmpty then failure else pure (String.ofList name)

/-- A key: names with dots between them. -/
def key : Reader (List String) := do
  blanks
  let first ← simpleKey
  blanks
  let others ← many do
    if ← sees "." then
      skip 1
      blanks
      let name ← simpleKey
      blanks
      pure (some name)
    else
      pure none
  pure (first :: others)

/-- Items with commas between them, up to a closing mark. -/
def separated {α : Type} (mark : String) (item : Reader α) : Reader (List α) :=
  many do
    gap
    if ← sees mark then
      expect mark
      pure none
    else
      let first ← item
      gap
      if ← sees "," then skip 1
      else if ← sees mark then pure ()
      else failure
      pure (some first)

/-- A value that is neither a string nor a collection. -/
def bareValue : Reader Value := do
  let word ← takeWhile fun c =>
    c.isAlphanum || c == '_' || c == '-' || c == '+' || c == '.' || c == ':'
  match String.ofList word with
  | "" => failure
  | "true" => pure (.boolean true)
  | "false" => pure (.boolean false)
  | _ => pure .other

def valueWith (value : Reader Value) : Reader Value := do
  match ← peek with
  | some '"' | some '\'' => .string <$> string
  | some '[' =>
    skip 1
    .array <$> separated "]" value
  | some '{' =>
    skip 1
    let _ ← separated "\x7d" do
      let _ ← key
      expect "="
      blanks
      value
    pure .other
  | _ => bareValue

def valueUpTo : Nat → Reader Value
  | 0 => failure
  | n + 1 => valueWith (valueUpTo n)

def value : Reader Value := fun cs => valueUpTo (cs.length + 1) cs

/-! ## Documents -/

def lineEnd : Reader Unit := do
  blanks
  match ← peek with
  | none | some '\n' | some '#' => pure ()
  | _ => expect "\r\n"

/-- The keys of a table header. -/
def header : Reader (List String) := do
  let array ← sees "[["
  skip (if array then 2 else 1)
  let name ← key
  expect (if array then "]]" else "]")
  lineEnd
  pure name

def assignment : Reader Entry := do
  let name ← key
  expect "="
  blanks
  let v ← value
  lineEnd
  pure (name, v)

/-- A line of a document: a header or an assignment. -/
def line : Reader (Option (List String ⊕ Entry)) := do
  gap
  match ← peek with
  | none => pure none
  | some '[' => (some ∘ .inl) <$> header
  | _ => (some ∘ .inr) <$> assignment

end Reader

/-- Puts the keys of the last header before those of each assignment. -/
def entriesUnder : List String → List (List String ⊕ Entry) → List Entry
  | _, [] => []
  | _, .inl header :: lines => entriesUnder header lines
  | header, .inr (name, value) :: lines => (header ++ name, value) :: entriesUnder header lines

/-- All assignments of a document; `none` if it is malformed. -/
def read? (text : String) : Option (List Entry) :=
  (Reader.many Reader.line).run text.toList |>.map fun (lines, _) => entriesUnder [] lines

end FlatStack.Toml
