import Scriptlet.Source.Position
/-!
# Tokens

The terminals of the grammar, and the tokens of a source. Which words are keywords depends on where
they stand, so a reader of tokens is always in a `Mode`, and the mode after a token is a function of
the mode before it and the token's terminal.
-/

namespace Scriptlet.Source

inductive Terminal where
  | identifier | integer | float | string
  | trueWord | falseWord | nullWord
  | ifWord | unlessWord | whileWord | untilWord | elseWord
  | compareOp | addOp | mulOp | negation
  | assign | semicolon | comma
  | leftParen | rightParen | leftBrace | rightBrace
  deriving DecidableEq, Repr

structure Token where
  terminal : Terminal
  text : List Char
  span : Span
  deriving DecidableEq, Repr

/-- What the grammar has come to at a point of the source, as far as it decides how the next token
is read. -/
inductive Mode where
  /-- A statement may begin. -/
  | line
  /-- The name that a statement begins with has been read. -/
  | target
  /-- An operand has to follow. -/
  | operand
  /-- An operand is complete: an operator may follow, or a statement. -/
  | afterOperand
  /-- A block is complete: a statement may follow, or an else branch. -/
  | afterBlock
  /-- An else branch has to follow. -/
  | branch
  deriving DecidableEq, Repr

namespace Mode

/-- The mode behind a token. -/
def after (m : Mode) : Terminal → Mode
  | .identifier => if m = operand then afterOperand else target
  | .integer | .float | .string | .trueWord | .falseWord | .nullWord => afterOperand
  | .ifWord | .unlessWord | .whileWord | .untilWord => operand
  | .elseWord => branch
  | .compareOp | .addOp | .mulOp | .negation | .assign | .comma | .leftParen => operand
  | .rightParen => afterOperand
  | .semicolon | .leftBrace => line
  | .rightBrace => afterBlock

/-- The keywords that are told from names in a mode. -/
def keywords : Mode → List (String × Terminal)
  | operand => [("true", .trueWord), ("false", .falseWord), ("null", .nullWord)]
  | target => []
  | line | afterOperand | branch => conditionals
  | afterBlock => ("else", .elseWord) :: conditionals
where
  conditionals : List (String × Terminal) :=
    [("if", .ifWord), ("unless", .unlessWord), ("while", .whileWord), ("until", .untilWord)]

end Mode

end Scriptlet.Source
