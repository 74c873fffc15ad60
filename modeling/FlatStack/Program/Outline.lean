import FlatStack.Decimal.Notation
import FlatStack.Program.Basic

/-!
# Program outlines

An outline shows a program as nested records, one part to a line and each
part indented below its owner.
-/

set_option autoImplicit false

namespace FlatStack

/-- A tree of labelled parts. -/
inductive Outline where
  | leaf (text : String)
  | record (name : String) (fields : List (String × Outline))
  | items (opening closing : String) (parts : List Outline)

namespace Outline

def quoted (name : String) : Outline := .leaf ("\"" ++ name ++ "\"")

/-- A constructor with its arguments. -/
def node (name : String) (parts : List Outline) : Outline := .items (name ++ "(") ")" parts

def list (parts : List Outline) : Outline := .items "[" "]" parts

def optional : Option Outline → Outline
  | none => .leaf "None"
  | some part => node "Some" [part]

def indent (depth : Nat) : String := String.ofList (List.replicate (4 * depth) ' ')

/-- A group in its brackets. One without lines closes at once. -/
def bracketed (depth : Nat) (opening closing : String) (lines : String) : String :=
  if lines.isEmpty then opening ++ closing
  else opening ++ "\n" ++ lines ++ indent depth ++ closing

mutual

/-- The text of an outline whose first line is already indented by `depth`. -/
def render (depth : Nat) : Outline → String
  | .leaf text => text
  | .record name fields =>
    bracketed depth (name ++ " \x7b") "\x7d" (renderFields (depth + 1) fields)
  | .items opening closing parts =>
    bracketed depth opening closing (renderParts (depth + 1) parts)

def renderFields (depth : Nat) : List (String × Outline) → String
  | [] => ""
  | (name, part) :: fields =>
    indent depth ++ name ++ ": " ++ render depth part ++ ",\n" ++ renderFields depth fields

def renderParts (depth : Nat) : List Outline → String
  | [] => ""
  | part :: parts => indent depth ++ render depth part ++ ",\n" ++ renderParts depth parts

end

def text (o : Outline) : String := o.render 0

end Outline

namespace UnaryOp

def label : UnaryOp → String
  | .neg => "Neg"
  | .not => "Not"

end UnaryOp

namespace BinaryOp

def label : BinaryOp → String
  | .add => "Add"
  | .sub => "Sub"
  | .mul => "Mul"
  | .div => "Div"
  | .compare .eq => "Eq"
  | .compare .ne => "Ne"
  | .compare .ge => "Ge"
  | .compare .le => "Le"
  | .compare .gt => "Gt"
  | .compare .lt => "Lt"
  | .and => "And"
  | .or => "Or"

end BinaryOp

namespace Outline

def ofCall (callee : String) (arguments : List Outline) : Outline :=
  .record "Call" [("name", quoted callee), ("args", list arguments)]

mutual

def ofExpr : Expr → Outline
  | .number n => node "Number" [.leaf (Decimal.marked n)]
  | .var name => node "Var" [quoted name]
  | .read => .leaf "Read"
  | .unary op e => node "Unary" [.leaf op.label, ofExpr e]
  | .binary op l r => node "Binary" [.leaf op.label, ofExpr l, ofExpr r]
  | .call callee arguments => node "Call" [ofCall callee (ofExprs arguments)]

def ofExprs : List Expr → List Outline
  | [] => []
  | e :: es => ofExpr e :: ofExprs es

end

def ofCondition (e : Expr) : Outline := .record "Condition" [("expr", ofExpr e)]

def ofBranch (condition : Expr) (body : List Outline) (otherwise : Option (List Outline)) :
    Outline :=
  node "If" [.record "IfStatement" [("condition", ofCondition condition),
    ("then_body", list body), ("else_body", optional (otherwise.map list))]]

mutual

def ofStatement : Statement → Outline
  | .echo e => node "Echo" [ofExpr e]
  | .assign name e =>
    node "Assign" [.record "Assignment" [("name", quoted name), ("expr", ofExpr e)]]
  | .ifThen c body => ofBranch c (ofStatements body) none
  | .ifElse c body otherwise => ofBranch c (ofStatements body) (some (ofStatements otherwise))
  | .loop c body =>
    node "While" [.record "WhileStatement" [("condition", ofCondition c),
      ("body", list (ofStatements body))]]
  | .call callee arguments => node "Call" [ofCall callee (ofExprs arguments)]

def ofStatements : List Statement → List Outline
  | [] => []
  | s :: ss => ofStatement s :: ofStatements ss

end

def ofParts (declarations statements : List Outline) : Outline :=
  .record "Body" [("declarations", list declarations), ("statements", list statements)]

mutual

def ofDeclaration : Declaration → Outline
  | .variable name initializer =>
    node "Var" [.record "VarDecl" [("name", quoted name),
      ("initializer", optional (initializer.map ofExpr))]]
  | .function name parameters declarations statements =>
    node "Function" [.record "FuncDecl" [("name", quoted name),
      ("params", list (parameters.map quoted)),
      ("body", ofParts (ofDeclarations declarations) (ofStatements statements))]]

def ofDeclarations : List Declaration → List Outline
  | [] => []
  | d :: ds => ofDeclaration d :: ofDeclarations ds

end

def ofProgram (p : Program) : Outline :=
  .record "Program" [("body", ofParts (ofDeclarations p.declarations) (ofStatements p.statements))]

end Outline

end FlatStack
