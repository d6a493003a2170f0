import Scriptlet.Proofs.Outcomes
import Scriptlet.Source.Program
/-!
# Entering nodes

Which nodes an evaluation evaluates, and in which states: a node enters each of its children in the
state that the children before it have left. An operator and a conditional are each one definition
for all the words they may begin with, and evaluation agrees with it (`eval_binary`,
`eval_conditional`); so is what follows once the arguments of a call are counted (`invoke_eq`).
-/

namespace Scriptlet

open Source (Keyword Level)

def applyOperator (level : Level) (op : String) (a b : Value) : Except Fault Value :=
  match level with
  | .comparison => (applyComparison op a b).map .bool
  | .sum | .product => applyArithmetic op a b

/-- The keyword under which the condition of a conditional has to be true. -/
def positive : Keyword → String
  | .ifWord | .unlessWord => "if"
  | .whileWord | .untilWord => "while"

section

variable (host : Host) (rounds : Nat)

def check (w : Keyword) (word : String) (condition : Node) : Run Bool := do
  let v ← eval host rounds condition
  Run.ofExcept (conditionMet word (positive w) v)

def once (body : Node) : Run Unit := do
  let _ ← eval host rounds body
  pure ()

def proceed (w : Keyword) (word : String) (condition body : Node) : Run Unit :=
  match w with
  | .ifWord | .unlessWord => once host rounds body
  | .whileWord | .untilWord =>
    Run.repeatWhile (check host rounds w word condition) (once host rounds body) rounds

theorem evalAll_append (xs ys : List Node) :
    evalAll host rounds (xs ++ ys) =
      evalAll host rounds xs >>= fun _ => evalAll host rounds ys := by
  induction xs with
  | nil => rw [List.nil_append, evalAll, pure_bind]
  | cons x xs ih => rw [List.cons_append, evalAll, evalAll, ih, bind_assoc]

theorem evalArgs_append (xs ys : List Node) :
    evalArgs host rounds (xs ++ ys) = (do
      let vs ← evalArgs host rounds xs
      let ws ← evalArgs host rounds ys
      pure (vs ++ ws)) := by
  induction xs with
  | nil => simp only [List.nil_append, evalArgs, pure_bind, bind_pure]
  | cons x xs ih =>
    simp only [List.cons_append, evalArgs, ih, bind_assoc, pure_bind]

theorem eval_statements {label : Label} (hl : label = .program ∨ label = .block)
    (kids : List Node) (place : Place) :
    eval host rounds (.tree label kids place) =
      Run.located place (do evalAll host rounds kids; pure .null) := by
  rcases hl with rfl | rfl
  · rw [eval]
  · rw [eval]

theorem eval_binary (level : Level) (lhs rhs : Node) (op : String) (p place : Place) :
    eval host rounds (.tree level.label [lhs, .token level.tokenKind op p, rhs] place) =
      Run.located place (do
        let a ← eval host rounds lhs
        let b ← eval host rounds rhs
        Run.ofExcept (applyOperator level op a b)) := by
  cases level with
  | comparison => rw [Level.label, eval]; rfl
  | sum => rw [Level.label, eval, evalArithmetic]; rfl
  | product => rw [Level.label, eval, evalArithmetic]; rfl

theorem eval_conditional (w : Keyword) (word : String) (c b : Node) {otherwise : List Node}
    (p place : Place) (single : otherwise.length ≤ 1) :
    eval host rounds (.tree w.label (.token w.tokenKind word p :: c :: b :: otherwise) place) =
      Run.located place (do
        if ← check host rounds w word c then do
          proceed host rounds w word c b
          pure .null
        else evalElse host rounds otherwise) := by
  have hlen : ¬ 1 < otherwise.length := Nat.not_lt.mpr single
  cases w with
  | ifWord =>
    rw [Keyword.label, eval, if_neg hlen]
    simp only [check, proceed, once, bind_assoc, pure_bind]
    rfl
  | unlessWord =>
    rw [Keyword.label, eval, if_neg hlen]
    simp only [check, proceed, once, bind_assoc, pure_bind]
    rfl
  | whileWord =>
    rw [Keyword.label, eval, if_neg hlen]
    simp only [check, proceed, once, bind_assoc]
    rfl
  | untilWord =>
    rw [Keyword.label, eval, if_neg hlen]
    simp only [check, proceed, once, bind_assoc]
    rfl

/-- What a call makes of the answer of its function. -/
def accept (c : Callable) : Answer → Run Value
  | .value v => pure v
  | .nothing => pure .null
  | .foreign typeName => Run.fail (.foreignAnswer c.name typeName)
  | .incomputable reason => Run.fail (.incomputable c.name reason)
  | .rejected reason => Run.fail (.rejected c.name reason)
  | .fails f => Run.fail f

def carryOut (c : Callable) (args : List Value) : Run Value := do
  Run.record (.enter c args)
  Run.print (host.reply c.ident args).output
  accept c (host.reply c.ident args).answer

theorem invoke_eq (c : Callable) (args : List Value) :
    invoke host c args =
      match c.arity with
      | some n =>
        if args.length ≠ n then Run.fail (.wrongArity c.name n args.length)
        else carryOut host c args
      | none => carryOut host c args := by
  unfold invoke
  cases c.arity with
  | none => rfl
  | some n =>
    by_cases h : args.length ≠ n
    · simp only [if_pos h]
      rfl
    · simp only [if_neg h]
      rfl

/-- A node, evaluated from a state, evaluates a child from a state. -/
inductive Enters : Node → State → Node → State → Prop where
  | statement {label : Label} {before : List Node} {n : Node} {after : List Node} {place : Place}
      {s t : State} (hl : label = .program ∨ label = .block)
      (h : evalAll host rounds before s = (.ok (), t)) :
      Enters (.tree label (before ++ n :: after) place) s n t
  | source {name : String} {n : Node} {p place : Place} {s : State} :
      Enters (.tree .assignment [.token .identifier name p, n] place) s n s
  | argument {name : String} {before : List Node} {n : Node} {after : List Node} {p place : Place}
      {s t : State} {vs : List Value} (h : evalArgs host rounds before s = (.ok vs, t)) :
      Enters (.tree .functionCall (.token .identifier name p :: (before ++ n :: after)) place) s n t
  | operand {n : Node} {place : Place} {s : State} : Enters (.tree .negate [n] place) s n s
  | left {level : Level} {n rhs : Node} {op : String} {p place : Place} {s : State} :
      Enters (.tree level.label [n, .token level.tokenKind op p, rhs] place) s n s
  | right {level : Level} {lhs n : Node} {op : String} {p place : Place} {s t : State} {a : Value}
      (h : eval host rounds lhs s = (.ok a, t)) :
      Enters (.tree level.label [lhs, .token level.tokenKind op p, n] place) s n t
  | condition {w : Keyword} {word : String} {n b : Node} {otherwise : List Node} {p place : Place}
      {s : State} (single : otherwise.length ≤ 1) :
      Enters (.tree w.label (.token w.tokenKind word p :: n :: b :: otherwise) place) s n s
  | body {w : Keyword} {word : String} {c n : Node} {otherwise : List Node} {p place : Place}
      {s t : State} (single : otherwise.length ≤ 1) (hw : w.label = .ifBlock)
      (h : check host rounds w word c s = (.ok true, t)) :
      Enters (.tree w.label (.token w.tokenKind word p :: c :: n :: otherwise) place) s n t
  | round {w : Keyword} {word : String} {c n : Node} {otherwise : List Node} {p place : Place}
      {s t u : State} (single : otherwise.length ≤ 1) (hw : w.label = .whileBlock)
      (h : check host rounds w word c s = (.ok true, t))
      (behind : Run.Rounds (check host rounds w word c) (once host rounds n) t u) :
      Enters (.tree w.label (.token w.tokenKind word p :: c :: n :: otherwise) place) s n u
  | again {w : Keyword} {word : String} {n b : Node} {otherwise : List Node} {p place : Place}
      {s t u v : State} (single : otherwise.length ≤ 1) (hw : w.label = .whileBlock)
      (h : check host rounds w word n s = (.ok true, t))
      (behind : Run.Rounds (check host rounds w word n) (once host rounds b) t u)
      (hb : once host rounds b u = (.ok (), v)) :
      Enters (.tree w.label (.token w.tokenKind word p :: n :: b :: otherwise) place) s n v
  | otherwise {w : Keyword} {word : String} {c b n : Node} {p place : Place} {s t : State}
      (h : check host rounds w word c s = (.ok false, t)) :
      Enters (.tree w.label (.token w.tokenKind word p :: c :: b :: [n]) place) s n t
  | branch {n : Node} {place : Place} {s : State} : Enters (.tree .elseBlock [n] place) s n s

/-- The children of a node that its evaluation may evaluate. -/
def operands : Node → List Node
  | .tree .program kids _ | .tree .block kids _ => kids
  | .tree .assignment [_, n] _ | .tree .negate [n] _ | .tree .elseBlock [n] _ => [n]
  | .tree .functionCall (_ :: args) _ => args
  | .tree .comparison [lhs, _, rhs] _ | .tree .additive [lhs, _, rhs] _
  | .tree .multiplicative [lhs, _, rhs] _ => [lhs, rhs]
  | .tree .ifBlock (_ :: parts) _ | .tree .whileBlock (_ :: parts) _ => parts
  | _ => []

theorem operands_binary (level : Level) (lhs op rhs : Node) (place : Place) :
    operands (.tree level.label [lhs, op, rhs] place) = [lhs, rhs] := by
  cases level <;> rfl

theorem operands_conditional (w : Keyword) (k : Node) (parts : List Node) (place : Place) :
    operands (.tree w.label (k :: parts) place) = parts := by
  cases w <;> rfl

theorem operands_statements {label : Label} (hl : label = .program ∨ label = .block)
    (kids : List Node) (place : Place) : operands (.tree label kids place) = kids := by
  rcases hl with rfl | rfl <;> rfl

/-- A node that is entered is a child. -/
theorem mem_operands_of_enters {n m : Node} {s t : State} (h : Enters host rounds n s m t) :
    m ∈ operands n := by
  cases h with
  | statement hl _ =>
    rw [operands_statements hl]
    exact List.mem_append_right _ (List.mem_cons_self ..)
  | source => exact List.mem_singleton_self m
  | argument _ => exact List.mem_append_right _ (List.mem_cons_self ..)
  | operand => exact List.mem_singleton_self m
  | left =>
    rw [operands_binary]
    exact List.mem_cons_self ..
  | right _ =>
    rw [operands_binary]
    exact List.mem_cons_of_mem _ (List.mem_singleton_self m)
  | condition _ | again _ _ _ _ _ =>
    rw [operands_conditional]
    exact List.mem_cons_self ..
  | body _ _ _ | round _ _ _ _ =>
    rw [operands_conditional]
    exact List.mem_cons_of_mem _ (List.mem_cons_self ..)
  | otherwise _ =>
    rw [operands_conditional]
    exact List.mem_cons_of_mem _ (List.mem_cons_of_mem _ (List.mem_singleton_self m))
  | branch => exact List.mem_singleton_self m

/-- A node, evaluated from a state, comes to evaluate a node inside from a state. -/
inductive Reaches : Node → State → Node → State → Prop where
  | here {n : Node} {s : State} : Reaches n s n s
  | into {n m k : Node} {s t u : State} (h : Enters host rounds n s m t) (rest : Reaches m t k u) :
      Reaches n s k u

end

theorem Reaches.trans {host : Host} {rounds : Nat} {n m k : Node} {s t u : State}
    (h : Reaches host rounds n s m t) (h' : Reaches host rounds m t k u) :
    Reaches host rounds n s k u := by
  induction h with
  | here => exact h'
  | into he _ ih => exact .into he (ih h')

end Scriptlet
