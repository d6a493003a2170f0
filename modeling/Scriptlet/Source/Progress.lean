import Scriptlet.Source.Program
import Scriptlet.Source.Token
/-!
# Reading tokens into a program

A program is read one token at a time. `Progress` is how far the reading has come: the statements of
the blocks that are still open, and what has been read of the statement at hand. A step takes one
token or refuses it, and never looks ahead, so the reading of two lists of tokens one after the
other is the reading of their concatenation (`readAll_append`).
-/

namespace Scriptlet.Source

/-! ## Expressions -/

/-- An expression where an operand stands; `outer` includes the parentheses around it. -/
structure Operand where
  expr : Expr
  outer : Span
  deriving Repr

/-- The operators that wait for their right operand. -/
structure Pending where
  comparison : Option (Operand × Word)
  sum : Option (Operand × Word)
  product : Option (Operand × Word)
  /-- The negation signs before the operand, innermost first. -/
  negations : List Span
  deriving Repr

namespace Pending

def none : Pending := ⟨.none, .none, .none, []⟩

/-- An operand joined to the left operand that waits for it. -/
def join (level : Level) (waiting : Option (Operand × Word)) (rhs : Operand) : Operand :=
  match waiting with
  | .none => rhs
  | some (lhs, operator) =>
    let span := lhs.outer.to rhs.outer
    ⟨.binary level lhs.expr operator rhs.expr span, span⟩

/-- An operand under the negation signs before it. -/
def negated (p : Pending) (o : Operand) : Operand :=
  p.negations.foldl (fun o sign => let span := sign.to o.outer; ⟨.negate o.expr span, span⟩) o

def toProduct (p : Pending) (o : Operand) : Operand := join .product p.product (p.negated o)

def toSum (p : Pending) (o : Operand) : Operand := join .sum p.sum (p.toProduct o)

def toComparison (p : Pending) (o : Operand) : Operand := join .comparison p.comparison (p.toSum o)

/-- What waits behind an operator that follows a complete operand. -/
def push (p : Pending) (o : Operand) (level : Level) (operator : Word) : Pending :=
  match level with
  | .product => { p with product := some (p.toProduct o, operator), negations := [] }
  | .sum => ⟨p.comparison, some (p.toSum o, operator), .none, []⟩
  | .comparison => ⟨some (p.toComparison o, operator), .none, .none, []⟩

end Pending

/-- What an expression stands in, within its statement. -/
inductive Surround where
  | paren (mark : Span)
  /-- An argument of a call; the arguments before it, last first. -/
  | argument (callee : Word) (before : List Expr)
  deriving Repr

/-- A guard and its body, read in full. -/
structure Arm where
  guard : Guard
  body : Block

/-- What the outermost expression of a statement is for. -/
inductive Purpose where
  | assign (target : Word)
  /-- The condition of a statement that follows the arms of a chain, last first. -/
  | guard (arms : List Arm) (keyword : Keyword) (span : Span)
  /-- An argument of a call statement. -/
  | argument (callee : Word) (before : List Expr)

/-- An expression that is being read. -/
structure Expecting where
  purpose : Purpose
  /-- What encloses the innermost expression, from within, with the operators waiting there. -/
  around : List (Surround × Pending)
  pending : Pending

def Expecting.start (purpose : Purpose) : Expecting := ⟨purpose, [], .none⟩

/-! ## Statements -/

/-- The statements read so far of a block or of the program, last first, and what they take up. -/
structure Scope where
  done : List Statement
  extent : Option Span

namespace Scope

def empty : Scope := ⟨[], none⟩

/-- The scope with its extent drawn out to a span. -/
def reach (s : Scope) (span : Span) : Scope :=
  { s with extent := some (match s.extent with
      | none => span
      | some e => e.to span) }

/-- One more statement; `outer` includes the parentheses around its last expression. -/
def add (s : Scope) (statement : Statement) (outer : Span) : Scope :=
  { s.reach outer with done := statement :: s.done }

end Scope

/-- How an open block was opened. -/
inductive Opening where
  | body (arms : List Arm) (guard : Guard) (brace : Span)
  | branch (arm : Arm) (arms : List Arm) (brace : Span)

/-- The conditional that a chain of arms makes, the last arm first, with an else branch after the
last one. -/
def Conditional.ofArms (tail : Otherwise) (last : Span) : Arm → List Arm → Conditional
  | arm, [] => .mk arm.guard arm.body tail (arm.guard.span.to last)
  | arm, earlier :: arms =>
    Conditional.ofArms (.chain (.mk arm.guard arm.body tail (arm.guard.span.to last))) last
      earlier arms

/-- What has been read of the statement at hand. -/
inductive Point where
  /-- Nothing; a semicolon may end the statement before. -/
  | line (semicolon : Bool)
  /-- The name that begins the statement. -/
  | named (name : Word)
  /-- An expression up to a point where an operand has to follow; in an empty list of arguments a
  parenthesis may close. -/
  | operand (e : Expecting) (closable : Bool)
  /-- An expression with its last operand; a name may turn out to be called. -/
  | operator (e : Expecting) (o : Operand) (name : Option Word)
  /-- A conditional with the body of its last arm. -/
  | closed (arm : Arm) (arms : List Arm)
  /-- A conditional, and the word that begins its else branch. -/
  | branch (arm : Arm) (arms : List Arm)

/-- How far the reading of a program has come. -/
structure Progress where
  scope : Scope
  /-- The enclosing scopes, from within, and how the block in each was opened. -/
  outer : List (Opening × Scope)
  point : Point

namespace Progress

def start : Progress := ⟨.empty, [], .line false⟩

def word (t : Token) : Word := ⟨String.ofList t.text, t.span⟩

def keyword? : Terminal → Option Keyword
  | .ifWord => some .ifWord
  | .unlessWord => some .unlessWord
  | .whileWord => some .whileWord
  | .untilWord => some .untilWord
  | _ => none

def literal? : Terminal → Option LiteralKind
  | .integer => some .integer
  | .float => some .float
  | .string => some .string
  | .trueWord => some .trueWord
  | .falseWord => some .falseWord
  | .nullWord => some .nullWord
  | _ => none

def level? : Terminal → Option Level
  | .compareOp => some .comparison
  | .addOp => some .sum
  | .mulOp => some .product
  | _ => none

/-- Begin a conditional that follows the arms of a chain. -/
def beginGuard (p : Progress) (arms : List Arm) (t : Token) : Option Progress :=
  (keyword? t.terminal).map fun k =>
    { p with point := .operand (.start (.guard arms k t.span)) false }

/-- The progress with a conditional made and added. -/
def addArms (p : Progress) (tail : Otherwise) (last : Span) (arm : Arm) (arms : List Arm) :
    Progress :=
  let c := Conditional.ofArms tail last arm arms
  { p with scope := p.scope.add (.conditional c) c.span, point := .line false }

/-- Close the innermost block. -/
def closeBlock (p : Progress) (t : Token) : Option Progress :=
  match p.outer with
  | [] => none
  | (.body arms guard brace, scope) :: outer =>
    let block := Block.mk p.scope.done.reverse (brace.to t.span)
    some ⟨scope, outer, .closed ⟨guard, block⟩ arms⟩
  | (.branch arm arms brace, scope) :: outer =>
    let block := Block.mk p.scope.done.reverse (brace.to t.span)
    some (addArms ⟨scope, outer, p.point⟩ (.block block) t.span arm arms)

/-- Open a block. -/
def openBlock (p : Progress) (opening : Opening) : Progress :=
  ⟨.empty, (opening, p.scope) :: p.outer, .line false⟩

/-- A token where a statement may begin. -/
def stepLine (p : Progress) (semicolon : Bool) (t : Token) : Option Progress :=
  match t.terminal with
  | .semicolon =>
    if semicolon then some { p with scope := p.scope.reach t.span, point := .line false } else none
  | .identifier => some { p with point := .named (word t) }
  | .rightBrace => p.closeBlock t
  | _ => p.beginGuard [] t

/-- A token behind the name that begins a statement. -/
def stepNamed (p : Progress) (name : Word) (t : Token) : Option Progress :=
  match t.terminal with
  | .assign => some { p with point := .operand (.start (.assign name)) false }
  | .leftParen => some { p with point := .operand (.start (.argument name [])) true }
  | _ => none

/-- The call that a closing parenthesis completes, given its arguments, last first. -/
def closeCall (p : Progress) (e : Expecting) (args : List Expr) (t : Token) : Option Progress :=
  match e.around with
  | (.argument callee _, pending) :: around =>
    let span := callee.span.to t.span
    let o : Operand := ⟨.call callee args.reverse span, span⟩
    some { p with point := .operator { e with around := around, pending := pending } o none }
  | (.paren _, _) :: _ => none
  | [] =>
    match e.purpose with
    | .argument callee _ =>
      let span := callee.span.to t.span
      some { p with
        scope := p.scope.add (.call callee args.reverse span) span
        point := .line true }
    | _ => none

/-- A token where an operand has to follow. -/
def stepOperand (p : Progress) (e : Expecting) (closable : Bool) (t : Token) : Option Progress :=
  match t.terminal with
  | .identifier =>
    some { p with point := .operator e ⟨.name (word t), t.span⟩ (some (word t)) }
  | .negation =>
    let pending := { e.pending with negations := t.span :: e.pending.negations }
    some { p with point := .operand { e with pending := pending } false }
  | .leftParen =>
    let around := (.paren t.span, e.pending) :: e.around
    some { p with point := .operand { e with around := around, pending := .none } false }
  | .rightParen => if closable then p.closeCall e [] t else none
  | terminal => (literal? terminal).map fun kind =>
    { p with point := .operator e ⟨.literal kind (word t), t.span⟩ none }

/-- A token behind a complete expression: it ends what the expression stands in, or goes on with
it. -/
def stepComplete (p : Progress) (e : Expecting) (o : Operand) (t : Token) : Option Progress :=
  match e.around with
  | (.paren mark, pending) :: around =>
    if t.terminal = .rightParen then
      let inner : Operand := ⟨o.expr, mark.to t.span⟩
      some { p with point := .operator { e with around := around, pending := pending } inner none }
    else none
  | (.argument callee before, pending) :: around =>
    match t.terminal with
    | .comma =>
      let around := (.argument callee (o.expr :: before), pending) :: around
      some { p with point := .operand { e with around := around, pending := .none } false }
    | .rightParen => p.closeCall e (o.expr :: before) t
    | _ => none
  | [] =>
    match e.purpose with
    | .assign target =>
      let span := target.span.to o.outer
      stepLine { p with scope := p.scope.add (.assign target o.expr span) span } true t
    | .guard arms keyword span =>
      if t.terminal = .leftBrace then
        some (p.openBlock (.body arms ⟨keyword, span, o.expr⟩ t.span))
      else none
    | .argument callee before =>
      match t.terminal with
      | .comma =>
        some { p with
          point := .operand ⟨.argument callee (o.expr :: before), [], .none⟩ false }
      | .rightParen => p.closeCall e (o.expr :: before) t
      | _ => none

/-- A token behind an operand. -/
def stepOperator (p : Progress) (e : Expecting) (o : Operand) (name : Option Word) (t : Token) :
    Option Progress :=
  match t.terminal, name with
  | .leftParen, some callee =>
    let around := (.argument callee [], e.pending) :: e.around
    some { p with point := .operand { e with around := around, pending := .none } true }
  | terminal, _ =>
    match level? terminal with
    | some level =>
      let pending := e.pending.push o level (word t)
      some { p with point := .operand { e with pending := pending } false }
    | none => p.stepComplete e (e.pending.toComparison o) t

/-- A token behind the body of the last arm of a conditional. -/
def stepClosed (p : Progress) (arm : Arm) (arms : List Arm) (t : Token) : Option Progress :=
  if t.terminal = .elseWord then some { p with point := .branch arm arms }
  else stepLine (p.addArms .absent arm.body.span arm arms) false t

/-- A token behind the word that begins an else branch. -/
def stepBranch (p : Progress) (arm : Arm) (arms : List Arm) (t : Token) : Option Progress :=
  if t.terminal = .leftBrace then some (p.openBlock (.branch arm arms t.span))
  else p.beginGuard (arm :: arms) t

/-- Take one more token, or refuse it. -/
def step (p : Progress) (t : Token) : Option Progress :=
  match p.point with
  | .line semicolon => p.stepLine semicolon t
  | .named name => p.stepNamed name t
  | .operand e closable => p.stepOperand e closable t
  | .operator e o name => p.stepOperator e o name t
  | .closed arm arms => p.stepClosed arm arms t
  | .branch arm arms => p.stepBranch arm arms t

/-- The program that has been read, if it may end here. -/
def finish (p : Progress) : Option Program :=
  let whole (scope : Scope) : Option Program :=
    if p.outer.isEmpty then some ⟨scope.done.reverse, scope.extent⟩ else none
  match p.point with
  | .line _ => whole p.scope
  | .operator ⟨.assign target, [], pending⟩ o _ =>
    let o := pending.toComparison o
    let span := target.span.to o.outer
    whole (p.scope.add (.assign target o.expr span) span)
  | .closed arm arms => whole (p.addArms .absent arm.body.span arm arms).scope
  | _ => none

/-- Take tokens one after the other; the tokens from the first refused one on are handed back. -/
def readAll (p : Progress) : List Token → Except (List Token) Progress
  | [] => .ok p
  | t :: ts =>
    match p.step t with
    | some next => next.readAll ts
    | none => .error (t :: ts)

theorem readAll_append {p q : Progress} {ts : List Token} (us : List Token)
    (h : p.readAll ts = .ok q) : p.readAll (ts ++ us) = q.readAll us := by
  induction ts generalizing p with
  | nil => simp_all [readAll]
  | cons t ts ih =>
    rw [readAll] at h
    rw [List.cons_append, readAll]
    cases hs : p.step t with
    | none => simp [hs] at h
    | some next => simp only [hs] at h ⊢; exact ih h

end Progress

end Scriptlet.Source
