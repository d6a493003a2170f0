import Scriptlet.Node
/-!
# Programs

What a source says, with the span of each part, and the tree that stands for it. Parentheses leave
no trace but in the spans of what encloses them. Every tree that a program gives has the shape that
its labels demand.
-/

namespace Scriptlet.Source

/-- A token that a program keeps. -/
structure Word where
  text : String
  span : Span
  deriving DecidableEq, Repr

/-- The three levels of binary operators, loosest first; all group to the left. -/
inductive Level where
  | comparison | sum | product
  deriving DecidableEq, Repr

inductive LiteralKind where
  | integer | float | string | trueWord | falseWord | nullWord
  deriving DecidableEq, Repr

inductive Expr where
  | literal (kind : LiteralKind) (word : Word)
  | name (word : Word)
  | call (callee : Word) (args : List Expr) (span : Span)
  | negate (operand : Expr) (span : Span)
  | binary (level : Level) (lhs : Expr) (operator : Word) (rhs : Expr) (span : Span)
  deriving Repr

/-- The words that begin a conditional statement. -/
inductive Keyword where
  | ifWord | unlessWord | whileWord | untilWord
  deriving DecidableEq, Repr

/-- A keyword and the condition behind it. -/
structure Guard where
  keyword : Keyword
  span : Span
  condition : Expr
  deriving Repr

mutual

inductive Statement where
  | assign (target : Word) (value : Expr) (span : Span)
  | call (callee : Word) (args : List Expr) (span : Span)
  | conditional (c : Conditional)

inductive Conditional where
  | mk (guard : Guard) (body : Block) (otherwise : Otherwise) (span : Span)

/-- The else branch of a conditional. -/
inductive Otherwise where
  | absent
  | block (b : Block)
  | chain (c : Conditional)

inductive Block where
  | mk (statements : List Statement) (span : Span)

end

/-- A list of statements, and the piece of the source they take up if there are any. -/
structure Program where
  statements : List Statement
  span : Option Span

def Conditional.span : Conditional → Span
  | .mk _ _ _ s => s

def Block.span : Block → Span
  | .mk _ s => s

def Statement.span : Statement → Span
  | .assign _ _ s => s
  | .call _ _ s => s
  | .conditional c => c.span

/-! ## Trees -/

def Level.label : Level → Label
  | .comparison => .comparison
  | .sum => .additive
  | .product => .multiplicative

def Level.tokenKind : Level → TokenKind
  | .comparison => .compareOp
  | .sum => .addOp
  | .product => .mulOp

def LiteralKind.tokenKind : LiteralKind → TokenKind
  | .integer => .integer
  | .float => .float
  | .string => .string
  | .trueWord => .trueWord
  | .falseWord => .falseWord
  | .nullWord => .nullWord

namespace Keyword

def text : Keyword → String
  | ifWord => "if"
  | unlessWord => "unless"
  | whileWord => "while"
  | untilWord => "until"

def tokenKind : Keyword → TokenKind
  | ifWord => .ifWord
  | unlessWord => .unlessWord
  | whileWord => .whileWord
  | untilWord => .untilWord

def label : Keyword → Label
  | ifWord | unlessWord => .ifBlock
  | whileWord | untilWord => .whileBlock

end Keyword

def Word.toNode (w : Word) (kind : TokenKind) : Node := .token kind w.text (.span w.span)

mutual

def Expr.toNode : Expr → Node
  | .literal kind w => .tree .constant [w.toNode kind.tokenKind] (.span w.span)
  | .name w => .tree .identifier [w.toNode .identifier] (.span w.span)
  | .call callee args s =>
    .tree .functionCall (callee.toNode .identifier :: Expr.toNodes args) (.span s)
  | .negate operand s => .tree .negate [operand.toNode] (.span s)
  | .binary level lhs operator rhs s =>
    .tree level.label [lhs.toNode, operator.toNode level.tokenKind, rhs.toNode] (.span s)

def Expr.toNodes : List Expr → List Node
  | [] => []
  | e :: es => e.toNode :: Expr.toNodes es

end

mutual

def Statement.toNode : Statement → Node
  | .assign target value s =>
    .tree .assignment [target.toNode .identifier, value.toNode] (.span s)
  | .call callee args s =>
    .tree .functionCall (callee.toNode .identifier :: Expr.toNodes args) (.span s)
  | .conditional c => c.toNode

def Conditional.toNode : Conditional → Node
  | .mk guard body otherwise s =>
    .tree guard.keyword.label
      (.token guard.keyword.tokenKind guard.keyword.text (.span guard.span) ::
        guard.condition.toNode :: body.toNode :: otherwise.toNodes)
      (.span s)

def Otherwise.toNodes : Otherwise → List Node
  | .absent => []
  | .block b => [.tree .elseBlock [b.toNode] (.span b.span)]
  | .chain c => [.tree .elseBlock [c.toNode] (.span c.span)]

def Block.toNode : Block → Node
  | .mk statements s => .tree .block (Statement.toNodes statements) (.span s)

def Statement.toNodes : List Statement → List Node
  | [] => []
  | s :: ss => s.toNode :: Statement.toNodes ss

end

def Program.toNode (p : Program) : Node :=
  .tree .program (Statement.toNodes p.statements)
    (match p.span with
      | none => .unknown
      | some s => .span s)

end Scriptlet.Source
