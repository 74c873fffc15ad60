import FlatStack.Scope.Basic

/-!
# Analyses

The tables of a program that passed the scope check: one for the top level
and one for each function, named for it.
-/

set_option autoImplicit false

namespace FlatStack

structure Analysis where
  globals : Table := Table.empty globalScope
  functions : List Table := []
  deriving DecidableEq, Repr

namespace Analysis

def function? (a : Analysis) (name : String) : Option Table :=
  a.functions.find? fun t => t.name == name

def byName (ts : List Table) : List Table :=
  ts.mergeSort fun a b => decide (a.name ≤ b.name)

def functionNames (a : Analysis) : List String := (byName a.functions).map (·.name)

def orDash (n : Option Nat) : String := (n.map toString).getD "-"

def symbolLine (s : Symbol) : String :=
  let details := match s.meaning with
    | .function parameters =>
      " parameters=[" ++ ", ".intercalate parameters ++ "] locals=" ++ toString s.slotCount
        ++ " entry=" ++ orDash s.entry
    | m => " address=" ++ orDash m.address?
  "  - name=" ++ s.name ++ " kind=" ++ s.meaning.label ++ " scope=" ++ s.meaning.scope
    ++ details ++ "\n"

def tableLines (t : Table) : String :=
  "scope " ++ t.name ++ " (next address " ++ toString t.nextAddress ++ ")\n"
    ++ String.join (t.sorted.map symbolLine)

/-- All tables by name and in each its symbols by name. A function that is
named like the outermost scope comes after it. -/
def listing (a : Analysis) : String :=
  String.join ((byName (a.globals :: a.functions)).map tableLines)

end Analysis

end FlatStack
