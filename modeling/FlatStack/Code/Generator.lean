import FlatStack.Code.Emission
import FlatStack.Scope.Analysis

/-!
# Code of programs

A body allocates its slots one by one, then come its functions, each behind a
jump over it, and then its initializers and statements. A function drops its
slots before it returns.

Functions are generated in order, and the entry of a function is known as
soon as its code begins. A generator keeps the entries, the table of the top
level and the code of abandoned programs for the programs to come.
-/

set_option autoImplicit false

namespace FlatStack

namespace Table

/-- Gives a variable an address unless the table has its name: the one in
`fixed` if it is there, else the next one. -/
def materialize (fixed : Option Table) (t : Table) (name : String) : Table :=
  if t.has name then t
  else
    match (fixed.bind fun f => f.find? name).bind fun s => s.meaning.address? with
    | some address =>
      (t.reserveThrough address).register { name, meaning := .variable t.name address }
    | none =>
      let (address, t) := t.allocate
      t.register { name, meaning := .variable t.name address }

def allocateParameter (t : Table) (name : String) : Table :=
  let (address, t) := t.allocate
  t.register { name, meaning := .parameter t.name address }

end Table

namespace Generator

/-- The code of one function from its entry to its return. -/
structure Block where
  name : String
  code : List Instruction

/-- The jump over a function. -/
def skip (target : Nat) (name : String) : Instruction :=
  (Instruction.withNat .jump target).commented ("funcao " ++ name)

/-- Functions one after another, each behind a jump to `target`. -/
def linked (target : Nat) (blocks : List Block) : List Instruction :=
  blocks.flatMap fun b => skip target b.name :: b.code

/-- The instructions that functions take, with the jumps over them. -/
def sizeOf (blocks : List Block) : Nat := blocks.foldr (fun b size => b.code.length + 1 + size) 0

/-- One slot for each declared variable. -/
def allocations (vars : Variables) : List Instruction :=
  vars.map fun _ => .withNat .alloc 1

/-- What stays the same throughout a program. -/
structure Plan where
  /-- Tables of functions whose addresses are settled. -/
  fixed : List Table
  /-- The number of variables at top level. -/
  globals : Nat

/-- What changes with each function. -/
structure Progress where
  entries : Entries
  /-- The table of the top level. -/
  globals : Table

abbrev Pass := ExceptT Abandoned (StateM Progress)

namespace Pass

def behind {α : Type} (before : List Instruction) (p : Pass α) : Pass α :=
  p.adapt (Abandoned.behind before)

def emit {α : Type} (e : Except Abandoned α) : Pass α := ExceptT.mk (pure e)

/-- Notes that the code of a function begins. Only functions at top level have
a symbol in the table. -/
def enter (topLevel : Bool) (name : String) (entry : Nat) : Pass Unit :=
  modify fun p =>
    { entries := (name, entry) :: p.entries
      globals := if topLevel then p.globals.setEntry name entry else p.globals }

end Pass

namespace Plan

/-- The table of a body, once its variables have their addresses. Addresses at
top level are never fixed beforehand. -/
def materialize (plan : Plan) (t : Table) (vars : Variables) : Table :=
  let fixed := if t.isGlobal then none else plan.fixed.find? fun f => f.name == t.name
  (vars.map (·.1)).foldl (Table.materialize fixed) t

def functionScope (plan : Plan) (around : Scope) (name : String) (parameters : List String)
    (vars : Variables) : Scope :=
  let scope := around.inside name
  let table := parameters.foldl Table.allocateParameter scope.table
  { scope with table := plan.materialize table vars }

/-- A body whose functions are generated already. -/
def bodyCode (plan : Plan) (scope : Scope) (base : Nat)
    (vars : Variables) (blocks : List Block)
    (statements : List Statement) : Pass (List Instruction) := do
  let start := base + vars.length + sizeOf blocks
  let before := allocations vars ++ linked start blocks
  let context : Context := ⟨scope, plan.globals, (← get).entries⟩
  let actions ← Pass.behind before (Pass.emit (context.actionCode start vars statements))
  pure (before ++ actions)

/-- Drops `slots` slots, if there are any, and returns. -/
def epilogue (slots : Nat) : List Instruction :=
  (if slots = 0 then [] else [.withNat .dealloc slots]) ++ [.bare .return_]

mutual

/-- The function that a declaration declares, if it does. -/
def functionBlock (plan : Plan) (topLevel : Bool) (around : Scope) (base : Nat) :
    Declaration → Pass (List Block)
  | .variable .. => pure []
  | .function name parameters declarations statements => do
    let vars := Declaration.vars declarations
    let scope := plan.functionScope around name parameters vars
    let entry := base + 1
    Pass.enter topLevel name entry
    let blocks ← Pass.behind (skip 0 name :: allocations vars)
      (plan.functionBlocks false scope (entry + vars.length) declarations)
    let body ← Pass.behind [skip 0 name]
      (plan.bodyCode scope entry vars blocks statements)
    pure [⟨name, body ++ epilogue (parameters.length + vars.length)⟩]

def functionBlocks (plan : Plan) (topLevel : Bool) (around : Scope) (base : Nat) :
    List Declaration → Pass (List Block)
  | [] => pure []
  | d :: ds => do
    let first ← plan.functionBlock topLevel around base d
    let others ← Pass.behind (linked 0 first)
      (plan.functionBlocks topLevel around (base + sizeOf first) ds)
    pure (first ++ others)

end

def programCode (plan : Plan) (scope : Scope) (base : Nat) (p : Program) :
    Pass (List Instruction) := do
  let vars := Declaration.vars p.declarations
  let start := Instruction.bare .start
  let blocks ← Pass.behind (start :: allocations vars)
    (plan.functionBlocks true scope (base + 1 + vars.length) p.declarations)
  let body ← Pass.behind [start] (plan.bodyCode scope (base + 1) vars blocks p.statements)
  pure (start :: body ++ [.bare .halt])

end Plan

end Generator

structure Generator where
  /-- Tables of the top level and of functions. -/
  analysis : Analysis := {}
  entries : Entries := []
  /-- Code of abandoned programs, which the next program continues. -/
  pending : List Instruction := []

namespace Generator

/-- A generator that takes its addresses from an analysis. -/
def ofAnalysis (analysis : Analysis) : Generator := { analysis }

/-- Generates the code of a program. -/
def generate (g : Generator) (p : Program) : Except EmissionError Bytecode × Generator :=
  let vars := Declaration.vars p.declarations
  let plan : Plan := ⟨g.analysis.functions, vars.length⟩
  let globals := plan.materialize g.analysis.globals vars
  let pass := plan.programCode (.ofTable globals) g.pending.length p
  let (result, progress) := pass.run.run ⟨g.entries, globals⟩
  let after := { g with
    analysis := { g.analysis with globals := progress.globals }
    entries := progress.entries }
  match result with
  | .ok code => (.ok (.ofList (g.pending ++ code)), { after with pending := [] })
  | .error a => (.error a.cause, { after with pending := g.pending ++ a.code })

end Generator

end FlatStack
