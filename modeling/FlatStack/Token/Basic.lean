import FlatStack.Decimal.Notation
import FlatStack.Operator
import FlatStack.Source.Location

/-!
# Tokens

A token is a kind and the span of source text it was read from. Names of
variables keep their leading dollar sign.
-/

set_option autoImplicit false

namespace FlatStack

inductive Keyword where
  | echo
  | whenTrue
  | otherwise
  | loop
  | function
  | floatval
  | readline
  | endOfLine
  deriving DecidableEq, Repr

namespace Keyword

def all : List Keyword :=
  [.echo, .whenTrue, .otherwise, .loop, .function, .floatval, .readline, .endOfLine]

def spelling : Keyword → String
  | .echo => "echo"
  | .whenTrue => "if"
  | .otherwise => "else"
  | .loop => "while"
  | .function => "function"
  | .floatval => "floatval"
  | .readline => "readline"
  | .endOfLine => "PHP_EOL"

/-- Keywords are spelled exactly, in their case. -/
def ofWord? (word : String) : Option Keyword := all.find? fun k => k.spelling == word

/-- The name a keyword has in token listings. -/
def label : Keyword → String
  | .echo => "Echo"
  | .whenTrue => "If"
  | .otherwise => "Else"
  | .loop => "While"
  | .function => "Function"
  | .floatval => "Floatval"
  | .readline => "Readline"
  | .endOfLine => "PhpEol"

end Keyword

namespace Token

inductive Kind where
  | number (value : Float)
  | variable (name : String)
  | identifier (name : String)
  | keyword (word : Keyword)
  | relation (relation : Relation)
  | openTag
  | closeTag
  | andAnd
  | orOr
  | bang
  | plus
  | minus
  | star
  | slash
  | assign
  | semicolon
  | comma
  | dot
  | leftParen
  | rightParen
  | leftBrace
  | rightBrace
  | invalid (character : Char)
  | endOfSource
  deriving DecidableEq, Repr

namespace Kind

def isKeyword : Kind → Bool
  | .keyword _ => true
  | _ => false

def isRelation : Kind → Bool
  | .relation _ => true
  | _ => false

/-- The name a kind has in token listings. -/
def label : Kind → String
  | .number _ => "Number"
  | .variable _ => "Variable"
  | .identifier _ => "Identifier"
  | .keyword k => k.label
  | .relation .eq => "EqualEqual"
  | .relation .ne => "BangEqual"
  | .relation .ge => "GreaterEqual"
  | .relation .le => "LessEqual"
  | .relation .gt => "Greater"
  | .relation .lt => "Less"
  | .openTag => "OpenTag"
  | .closeTag => "CloseTag"
  | .andAnd => "AmpAmp"
  | .orOr => "PipePipe"
  | .bang => "Bang"
  | .plus => "Plus"
  | .minus => "Minus"
  | .star => "Star"
  | .slash => "Slash"
  | .assign => "Equal"
  | .semicolon => "Semicolon"
  | .comma => "Comma"
  | .dot => "Dot"
  | .leftParen => "LeftParen"
  | .rightParen => "RightParen"
  | .leftBrace => "LeftBrace"
  | .rightBrace => "RightBrace"
  | .invalid _ => "Invalid"
  | .endOfSource => "Eof"

/-- The one spelling of a kind that has just one. -/
def spelling? : Kind → Option String
  | .keyword k => some k.spelling
  | .relation r => some r.symbol
  | .openTag => some "<?php"
  | .closeTag => some "?>"
  | .andAnd => some "&&"
  | .orOr => some "||"
  | .bang => some "!"
  | .plus => some "+"
  | .minus => some "-"
  | .star => some "*"
  | .slash => some "/"
  | .assign => some "="
  | .semicolon => some ";"
  | .comma => some ","
  | .dot => some "."
  | .leftParen => some "("
  | .rightParen => some ")"
  | .leftBrace => some "\x7b"
  | .rightBrace => some "\x7d"
  | _ => none

/-- What is said of a character that starts no token. -/
def unexpectedCharacter (c : Char) : String := "unexpected character '" ++ c.toString ++ "'"

/-- A kind as error messages name it. -/
def describe : Kind → String
  | .number n => "number " ++ Decimal.plain n
  | .variable name => "variable " ++ name
  | .identifier name => "identifier " ++ name
  | .invalid c => unexpectedCharacter c
  | k => match k.spelling? with
    | some s => "'" ++ s ++ "'"
    | none => "end of file"

/-- A kind with its contents, as token listings show it. Names hold nothing
that would need escaping. -/
def inspect : Kind → String
  | .number n => "Number(" ++ Decimal.marked n ++ ")"
  | .variable name => "Variable(\"" ++ name ++ "\")"
  | .identifier name => "Identifier(\"" ++ name ++ "\")"
  | .invalid c => "Invalid('" ++ c.toString ++ "')"
  | k => k.label

end Kind

end Token

structure Token where
  kind : Token.Kind
  span : Span
  deriving DecidableEq, Repr

end FlatStack
