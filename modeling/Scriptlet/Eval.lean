import Scriptlet.Literal
import Scriptlet.Run
/-!
# Evaluation

The value of a node in an environment. The shape of a node is checked before any of its children is
evaluated; children are evaluated from left to right; a failure takes the location of the innermost
node around it that has one. A loop may take as many rounds as the caller allows, and a run that
needs more ends with `Stop.outOfRounds`, which is neither a value nor a failure.
-/

namespace Scriptlet

/-- The value of a name. -/
def lookUp (name : String) : Run Value := do
  match (← Run.environment).get? name with
  | some v => pure v
  | none => Run.fail (.undefined "Variable" name)

/-- The text of a token that must be an identifier. -/
def expectName (n : Node) (d : Defect) : Run String :=
  match n with
  | .token .identifier text _ => pure text
  | _ => Run.fail (.malformed d)

/-- The text of a token that must be of one of some kinds. -/
def expectToken (n : Node) (kinds : List TokenKind) : Run String :=
  match n with
  | .token kind text _ =>
    if kinds.contains kind then pure text else Run.fail (.malformed (.wrongToken kinds n))
  | .tree .. => Run.fail (.malformed (.wrongToken kinds n))

/-- The value of a token on its own. -/
def evalToken (kind : TokenKind) (text : String) : Run Value :=
  match kind with
  | .identifier => lookUp text
  | k => Run.ofExcept (literalValue k text)

/-- Call a function of the host. -/
def invoke (host : Host) (c : Callable) (args : List Value) : Run Value := do
  match c.arity with
  | some n => if args.length ≠ n then Run.fail (.wrongArity c.name n args.length)
  | none => pure ()
  Run.record (.enter c args)
  let reply := host.reply c.ident args
  Run.print reply.output
  match reply.answer with
  | .value v => pure v
  | .nothing => pure .null
  | .foreign typeName => Run.fail (.foreignAnswer c.name typeName)
  | .incomputable reason => Run.fail (.incomputable c.name reason)
  | .rejected reason => Run.fail (.rejected c.name reason)
  | .fails f => Run.fail f

/-- The function that a name is bound to. -/
def resolveCallee (name : String) : Run Callable := do
  match (← Run.environment).get? name with
  | some (.callable c) => pure c
  | some v => Run.fail (.notCallable name v.kind)
  | none => Run.fail (.undefined "Function" name)

/-- Call the function that a name is bound to. -/
def callNamed (host : Host) (name : String) (args : List Value) : Run Value := do
  let c ← resolveCallee name
  Run.record (.call name args.length)
  invoke host c args

/-- Whether a condition with a value is met under the keyword before it: `positive` is the keyword
that wants it true, and any other wants it false. -/
def conditionMet (keyword positive : String) (v : Value) : Except Fault Bool :=
  (truth v).map fun b => if keyword == positive then b else !b

mutual

/-- The value of a node. -/
def eval (host : Host) (rounds : Nat) : Node → Run Value
  | .token kind text place => Run.located place (evalToken kind text)
  | .tree label kids place => Run.located place <|
    match label with
    | .program | .block => do
      evalAll host rounds kids
      pure .null
    | .assignment =>
      match kids with
      | [target, source] => do
        let name ← expectName target .assignmentTarget
        let v ← eval host rounds source
        Run.bind name v
        pure .null
      | _ => Run.fail (.malformed .assignment)
    | .functionCall =>
      match kids with
      | callee :: args => do
        let name ← expectName callee .calleeName
        let values ← evalArgs host rounds args
        callNamed host name values
      | [] => Run.fail (.malformed .call)
    | .identifier =>
      match kids with
      | [target] => do
        let name ← expectName target .referenceName
        lookUp name
      | _ => Run.fail (.malformed .reference)
    | .constant =>
      match kids with
      | [.token kind text _] => Run.ofExcept (literalValue kind text)
      | _ => Run.fail (.malformed .constant)
    | .additive => evalArithmetic host rounds .addOp kids
    | .multiplicative => evalArithmetic host rounds .mulOp kids
    | .comparison =>
      match kids with
      | [lhs, operator, rhs] => do
        let op ← expectToken operator [.compareOp]
        let a ← eval host rounds lhs
        let b ← eval host rounds rhs
        Run.ofExcept ((applyComparison op a b).map .bool)
      | _ => Run.fail (.malformed (.binary kids.length))
    | .negate =>
      match kids with
      | [operand] => do
        let v ← eval host rounds operand
        Run.ofExcept (negate v)
      | _ => Run.fail (.malformed .negation)
    | .ifBlock =>
      match kids with
      | keyword :: condition :: body :: otherwise =>
        if 1 < otherwise.length then Run.fail (.malformed (.conditional .ifBlock))
        else do
          let word ← expectToken keyword [.ifWord, .unlessWord]
          let v ← eval host rounds condition
          let met ← Run.ofExcept (conditionMet word "if" v)
          if met then do
            let _ ← eval host rounds body
            pure .null
          else evalElse host rounds otherwise
      | _ => Run.fail (.malformed (.conditional .ifBlock))
    | .whileBlock =>
      match kids with
      | keyword :: condition :: body :: otherwise =>
        if 1 < otherwise.length then Run.fail (.malformed (.conditional .whileBlock))
        else do
          let word ← expectToken keyword [.whileWord, .untilWord]
          let check : Run Bool := do
            let v ← eval host rounds condition
            Run.ofExcept (conditionMet word "while" v)
          let once : Run Unit := do
            let _ ← eval host rounds body
            pure ()
          let met ← check
          if met then do
            Run.repeatWhile check once rounds
            pure .null
          else evalElse host rounds otherwise
      | _ => Run.fail (.malformed (.conditional .whileBlock))
    | .elseBlock =>
      match kids with
      | [body] => eval host rounds body
      | _ => Run.fail (.malformed .elseClause)
    | .other _ => Run.fail (.unknownNode label)

/-- Evaluate nodes in order, for their effects. -/
def evalAll (host : Host) (rounds : Nat) : List Node → Run Unit
  | [] => pure ()
  | n :: ns => do
    let _ ← eval host rounds n
    evalAll host rounds ns

/-- The values of nodes, in order. -/
def evalArgs (host : Host) (rounds : Nat) : List Node → Run (List Value)
  | [] => pure []
  | n :: ns => do
    let v ← eval host rounds n
    let vs ← evalArgs host rounds ns
    pure (v :: vs)

/-- The value of an else branch, which may be absent. -/
def evalElse (host : Host) (rounds : Nat) : List Node → Run Value
  | [] => pure .null
  | n :: _ => eval host rounds n

/-- The value of a sum or product over its three children. -/
def evalArithmetic (host : Host) (rounds : Nat) (kind : TokenKind) : List Node → Run Value
  | [lhs, operator, rhs] => do
    let op ← expectToken operator [kind]
    let a ← eval host rounds lhs
    let b ← eval host rounds rhs
    Run.ofExcept (applyArithmetic op a b)
  | kids => Run.fail (.malformed (.binary kids.length))

end

end Scriptlet
