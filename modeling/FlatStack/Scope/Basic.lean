/-!
# Scopes

A table maps the names of one scope to symbols and hands out slot addresses
in increasing order. A scope is a table together with the tables around it,
the nearest one first.
-/

set_option autoImplicit false

namespace FlatStack

/-- The name of the outermost scope. A scope is told to be the outermost one by
this name alone. -/
def globalScope : String := "global"

/-- What a name stands for. -/
inductive Meaning where
  | variable (scope : String) (address : Nat)
  | parameter (scope : String) (address : Nat)
  | function (parameters : List String)
  deriving DecidableEq, Repr

structure Symbol where
  name : String
  meaning : Meaning
  /-- The slots of a function: its parameters and its variables. -/
  slotCount : Nat := 0
  /-- Where the code of a function begins. -/
  entry : Option Nat := none
  deriving DecidableEq, Repr

namespace Meaning

def label : Meaning → String
  | .variable .. => "variable"
  | .parameter .. => "parameter"
  | .function _ => "function"

/-- Functions always belong to the outermost scope. -/
def scope : Meaning → String
  | .variable scope _ => scope
  | .parameter scope _ => scope
  | .function _ => globalScope

def address? : Meaning → Option Nat
  | .variable _ address => some address
  | .parameter _ address => some address
  | .function _ => none

def parameters : Meaning → List String
  | .function parameters => parameters
  | _ => []

def isFunction : Meaning → Bool
  | .function _ => true
  | _ => false

/-- The stack slot of a name: the first `globals` slots are those of the
outermost scope, and all others lie directly above them. -/
def slot? (globals : Nat) (m : Meaning) : Option Nat :=
  m.address?.map fun a => if m.scope = globalScope then a else globals + a

end Meaning

structure Table where
  name : String
  symbols : List Symbol
  nextAddress : Nat
  deriving DecidableEq, Repr

namespace Table

def empty (name : String) : Table := ⟨name, [], 0⟩

def isGlobal (t : Table) : Bool := t.name == globalScope

def find? (t : Table) (name : String) : Option Symbol :=
  t.symbols.find? fun s => s.name == name

def has (t : Table) (name : String) : Bool := (t.find? name).isSome

/-- Hands out the next address. -/
def allocate (t : Table) : Nat × Table :=
  (t.nextAddress, { t with nextAddress := t.nextAddress + 1 })

/-- Makes every later address larger than `address`. -/
def reserveThrough (t : Table) (address : Nat) : Table :=
  { t with nextAddress := max t.nextAddress (address + 1) }

/-- Adds a symbol; `none` if its name is taken. -/
def register? (t : Table) (s : Symbol) : Option Table :=
  if t.has s.name then none else some { t with symbols := t.symbols ++ [s] }

/-- Adds a symbol unless its name is taken. -/
def register (t : Table) (s : Symbol) : Table := (t.register? s).getD t

/-- Changes the symbol of a name. -/
def modify (t : Table) (name : String) (change : Symbol → Symbol) : Table :=
  { t with symbols := t.symbols.map fun s => if s.name == name then change s else s }

def setEntry (t : Table) (name : String) (entry : Nat) : Table :=
  t.modify name fun s => { s with entry := some entry }

def setSlotCount (t : Table) (name : String) (slotCount : Nat) : Table :=
  t.modify name fun s => { s with slotCount }

/-- The symbols by the order of their names. -/
def sorted (t : Table) : List Symbol :=
  t.symbols.mergeSort fun a b => decide (a.name ≤ b.name)

end Table

structure Scope where
  table : Table
  outer : List Table
  deriving DecidableEq, Repr

namespace Scope

def ofTable (t : Table) : Scope := ⟨t, []⟩

/-- An empty scope inside another one. -/
def inside (around : Scope) (name : String) : Scope :=
  ⟨Table.empty name, around.table :: around.outer⟩

/-- The nearest symbol of a name. -/
def lookup? (s : Scope) (name : String) : Option Symbol :=
  (s.table :: s.outer).findSome? fun t => t.find? name

/-- The stack slot that a name denotes. -/
def slot? (s : Scope) (globals : Nat) (name : String) : Option Nat :=
  (s.lookup? name).bind fun symbol => symbol.meaning.slot? globals

end Scope

end FlatStack
