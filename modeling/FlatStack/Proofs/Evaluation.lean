import FlatStack.Code.Emission
import FlatStack.Machine.Run
import FlatStack.Proofs.Routines

/-!
# Evaluation

What a program means without any machine. Variables have values by name, and
those of a function are in an environment of their own. An evaluation may
fault, and it is unfinished when a loop or a chain of calls gets longer than a
given bound.
-/

set_option autoImplicit false

namespace FlatStack

/-! ## Situations -/

inductive FaultKind where
  | divisionByZero
  | endOfInput
  | unknownInstruction
  | stackLimit
  | console (error : ConsoleError)
  deriving DecidableEq, Repr

def Fault.kind : Fault → FaultKind
  | .divisionByZero _ => .divisionByZero
  | .endOfInput _ => .endOfInput
  | .unknownInstruction .. => .unknownInstruction
  | .stackLimit _ => .stackLimit
  | .console e => .console e

/-- Why an evaluation stops early. -/
inductive Stop where
  | fault (kind : FaultKind)
  | unfinished
  deriving DecidableEq, Repr

abbrev Env := String → Float

structure Situation where
  globals : Env
  /-- The environment of the running function. -/
  locals : Env
  console : Console

namespace Situation

/-- All variables are zero. -/
def initial (console : Console) : Situation := ⟨fun _ => 0, fun _ => 0, console⟩

/-- The value of a name. The names in `own` are those of the running function
and hide the names of the top level. -/
def read (own : List String) (x : String) (s : Situation) : Float :=
  if x ∈ own then s.locals x else s.globals x

def write (own : List String) (x : String) (v : Float) (s : Situation) : Situation :=
  if x ∈ own then { s with locals := Function.update s.locals x v }
  else { s with globals := Function.update s.globals x v }

end Situation

abbrev Evaluation := EStateM Stop Situation

/-- What a call does once its arguments have values. -/
abbrev Calling := String → List Float → Evaluation Unit

namespace Evaluation

def say (text : String) : Evaluation Unit := fun s =>
  match s.console.write text with
  | (console, true) => .ok () { s with console }
  | (console, false) => .error (.fault (.console .full)) { s with console }

/-- The number on the next line of the console. -/
def hear : Evaluation Float := fun s =>
  match s.console.readLine with
  | (none, _) => .error (.fault .endOfInput) s
  | (some (.error e), console) => .error (.fault (.console e)) { s with console }
  | (some (.ok line), console) => .ok (Machine.lineValue line) { s with console }

def ask (name : Option String) : Evaluation Float := do
  say (Machine.prompt name)
  hear

/-- Repeats `body` until the condition is zero. -/
def loop (condition : Evaluation Float) (body : Evaluation Unit) : Nat → Evaluation Unit
  | 0 => throw .unfinished
  | n + 1 => do
    if (← condition) == 0 then pure ()
    else
      body
      loop condition body n

end Evaluation

open Evaluation

/-! ## Expressions -/

namespace Expr

mutual

/-- A call has the value zero. -/
def evaluate (own : List String) (call : Calling) : Expr → Evaluation Float
  | .number n => pure n
  | .var x => do pure ((← get).read own x)
  | .read => ask none
  | .unary op e => do pure (op.apply (← e.evaluate own call))
  | .binary op l r => do
    let a ← l.evaluate own call
    let b ← r.evaluate own call
    if op = .div ∧ b == 0 then throw (.fault .divisionByZero) else pure (op.apply a b)
  | .call callee arguments => do
    call callee (← evaluateAll own call arguments)
    pure 0

def evaluateAll (own : List String) (call : Calling) : List Expr → Evaluation (List Float)
  | [] => pure []
  | e :: es => do
    let v ← e.evaluate own call
    let vs ← evaluateAll own call es
    pure (v :: vs)

end

/-- The value for a variable. A number from the console is asked for by its name. -/
def valueFor (own : List String) (call : Calling) (x : String) : Expr → Evaluation Float
  | .read => ask (some x)
  | e => e.evaluate own call

/-- Gives a variable the value of an expression. -/
def storeIn (own : List String) (call : Calling) (x : String) (e : Expr) : Evaluation Unit := do
  let v ← e.valueFor own call x
  modify (Situation.write own x v)

end Expr

/-! ## Statements -/

namespace Statement

mutual

/-- Each loop in a statement goes round at most `bound` times. -/
def execute (own : List String) (call : Calling) (bound : Nat) : Statement → Evaluation Unit
  | .echo e => do say (Machine.printed (← e.evaluate own call))
  | .assign x e => e.storeIn own call x
  | .ifThen c body => do
    if (← c.evaluate own call) == 0 then pure () else executeAll own call bound body
  | .ifElse c body otherwise => do
    if (← c.evaluate own call) == 0 then executeAll own call bound otherwise
    else executeAll own call bound body
  | .loop c body => Evaluation.loop (c.evaluate own call) (executeAll own call bound body) bound
  | .call callee arguments => do call callee (← Expr.evaluateAll own call arguments)

def executeAll (own : List String) (call : Calling) (bound : Nat) :
    List Statement → Evaluation Unit
  | [] => pure ()
  | s :: ss => do
    s.execute own call bound
    executeAll own call bound ss

end

end Statement

/-- Initializers in their order. A number close to zero counts as zero. -/
def Variables.prepare (own : List String) (call : Calling) : Variables → Evaluation Unit
  | [] => pure ()
  | (_, none) :: vs => Variables.prepare own call vs
  | (x, some e) :: vs => do
    if Context.isZero e then modify (Situation.write own x 0) else e.storeIn own call x
    Variables.prepare own call vs

/-! ## Programs -/

/-- Values by the names of parameters. All other names are zero. -/
def bind (parameters : List String) (values : List Float) : Env :=
  fun x => ((parameters.zip values).lookup x).getD 0

namespace Program

/-- A call in an environment of its own, with at most `depth` calls inside
each other. -/
def call (p : Program) (bound : Nat) : Nat → Calling
  | 0, _, _ => throw .unfinished
  | depth + 1, callee, values =>
    match p.routine? callee with
    | none => pure ()
    | some q => do
      let caller ← get
      modify fun s => { s with locals := bind q.parameters values }
      q.vars.prepare q.names (p.call bound depth)
      Statement.executeAll q.names (p.call bound depth) bound q.statements
      modify fun s => { s with locals := caller.locals }

inductive Verdict where
  | halted
  | faulted (kind : FaultKind)
  | unfinished
  deriving DecidableEq, Repr

/-- The initializers and statements of the top level. -/
def actions (p : Program) (bound : Nat) : Evaluation Unit := do
  p.vars.prepare [] (p.call bound bound)
  Statement.executeAll [] (p.call bound bound) bound p.statements

def evaluate (p : Program) (bound : Nat) (console : Console) : Verdict × Console :=
  match p.actions bound (.initial console) with
  | .ok _ s => (.halted, s.console)
  | .error (.fault kind) s => (.faulted kind, s.console)
  | .error .unfinished s => (.unfinished, s.console)

end Program

end FlatStack
