import Scriptlet.Proofs.Mentions
import Scriptlet.Workspace
/-!
# Expression trees

A tree of any labels and shapes is an expression if its evaluation comes upon no statement. What a
run comes to from an environment that it leaves as it is, and what it adds to the log, is one
relation (`Run.Comes`). Main statements: there are five forms of expressions without calls
(`callFree_induction`), and such an expression comes to one result, whatever has happened before,
and leaves no trace (`silent_of_callFree`).
-/

namespace Scriptlet

open Source (Keyword Level)

def Label.isStatement : Label → Bool
  | program | block | assignment | ifBlock | whileBlock | elseBlock => true
  | _ => false

/-- The trees that an evaluation may come upon have labels of some sort. -/
inductive Node.Composed (P : Label → Prop) : Node → Prop where
  | token {kind : TokenKind} {text : String} {place : Place} : Composed P (.token kind text place)
  | tree {label : Label} {kids : List Node} {place : Place} (hl : P label)
      (h : ∀ m ∈ operands (.tree label kids place), Composed P m) :
      Composed P (.tree label kids place)

def Node.IsExpression : Node → Prop := Composed fun l => l.isStatement = false

def Node.CallFree : Node → Prop := Composed fun l => l.isStatement = false ∧ l ≠ .functionCall

section

variable {P : Label → Prop} {n : Node}

theorem Node.Composed.operands (h : n.Composed P) : ∀ m ∈ operands n, m.Composed P := by
  cases h with
  | token => exact List.forall_mem_nil _
  | tree _ h => exact h

theorem Node.Composed.label {label : Label} {kids : List Node} {place : Place}
    (h : (Node.tree label kids place).Composed P) : P label := by
  cases h with
  | tree hl _ => exact hl

theorem isStatement_keyword (w : Keyword) : w.label.isStatement = true := by
  cases w <;> rfl

/-- Induction over the forms of expressions without calls. -/
@[elab_as_elim]
theorem callFree_induction {motive : Node → Prop}
    (misfit : ∀ n f, (∀ host rounds, eval host rounds n = Run.located n.place (Run.fail f)) →
      motive n)
    (name : ∀ n text, (∀ host rounds, eval host rounds n = Run.located n.place (lookUp text)) →
      motive n)
    (literal : ∀ n kind text, (∀ host rounds, eval host rounds n =
      Run.located n.place (Run.ofExcept (literalValue kind text))) → motive n)
    (negate : ∀ operand place, motive operand → motive (.tree .negate [operand] place))
    (binary : ∀ (level : Level) lhs rhs op p place, motive lhs → motive rhs →
      motive (.tree level.label [lhs, .token level.tokenKind op p, rhs] place))
    (h : n.CallFree) : motive n := by
  induction n using operands_induction with
  | h n ih =>
    have hchild : ∀ m ∈ operands n, motive m := fun m hm => ih m hm (h.operands m hm)
    cases form n with
    | misfit _ heval => exact misfit n _ heval
    | name text _ heval => exact name n text heval
    | literal _ heval => exact literal n _ _ heval
    | statements hl kids place => rcases hl with rfl | rfl <;> cases h.label.1
    | assignment | elseBlock => cases h.label.1
    | conditional w => cases h.label.1.symm.trans (isStatement_keyword w)
    | call => exact absurd rfl h.label.2
    | negate operand place => exact negate operand place (hchild _ (List.mem_singleton_self _))
    | binary level lhs rhs op p place =>
      simp only [operands_binary, List.forall_mem_cons] at hchild
      exact binary level lhs rhs op p place hchild.1 hchild.2.1

end

/-! ## What a run comes to -/

def Stop.leaving (place : Place) : Stop → Stop
  | .failure f => .failure (f.leaving place)
  | .outOfRounds => .outOfRounds

namespace Run

/-- From an environment, and whatever has happened before, a run comes to one result; it leaves the
environment as it is, and adds some events. -/
def Comes {α : Type} (r : Run α) (env : Environment) (x : Except Stop α) (new : List Event) :
    Prop :=
  ∀ log, r ⟨env, log⟩ = (x, ⟨env, new ++ log⟩)

variable {α β : Type} {env : Environment} {r : Run α} {new more : List Event}

theorem comes_pure (a : α) : (pure a : Run α).Comes env (.ok a) [] := fun _ => rfl

theorem comes_fail (f : Fault) : (fail f : Run α).Comes env (.error (.failure ⟨f, none⟩)) [] :=
  fun _ => rfl

theorem comes_ofExcept (x : Except Fault α) :
    (ofExcept x).Comes env (x.mapError fun f => .failure ⟨f, none⟩) [] := by
  cases x with
  | ok a => exact comes_pure a
  | error f => exact comes_fail f

theorem comes_read {k : Environment → Run β} {y : Except Stop β} (h : (k env).Comes env y new) :
    (environment >>= k).Comes env y new :=
  h

theorem Comes.bind_ok {a : α} (h : r.Comes env (.ok a) new) {k : α → Run β} {y : Except Stop β}
    (hk : (k a).Comes env y more) : (r >>= k).Comes env y (more ++ new) := by
  intro log
  rw [Run.bind_ok (h log), hk, List.append_assoc]

theorem Comes.bind_error {stop : Stop} (h : r.Comes env (.error stop) new) (k : α → Run β) :
    (r >>= k).Comes env (.error stop) new :=
  fun log => Run.bind_error (h log) k

theorem Comes.located {x : Except Stop α} (h : r.Comes env x new) (place : Place) :
    (located place r).Comes env (x.mapError (Stop.leaving place)) new := by
  intro log
  rcases x with stop | a
  · cases stop <;> rw [Run.located, h] <;> rfl
  · rw [Run.located, h]
    rfl

/-- A run that leaves no trace, and comes to the same each time. -/
def Silent (r : Run α) (env : Environment) : Prop := ∃ x, r.Comes env x []

theorem silent_ofExcept (x : Except Fault α) : (ofExcept x).Silent env := ⟨_, comes_ofExcept x⟩

theorem Silent.bind {k : α → Run β} (h : r.Silent env) (hk : ∀ a, (k a).Silent env) :
    (r >>= k).Silent env := by
  obtain ⟨stop | a, hx⟩ := h
  · exact ⟨_, hx.bind_error k⟩
  · obtain ⟨y, hy⟩ := hk a
    exact ⟨y, hx.bind_ok hy⟩

theorem Silent.located (h : r.Silent env) (place : Place) : (located place r).Silent env := by
  obtain ⟨x, hx⟩ := h
  exact ⟨_, hx.located place⟩

end Run

theorem comes_lookUp_some {env : Environment} {name : String} {v : Value}
    (h : env.get? name = some v) : (lookUp name).Comes env (.ok v) [] := by
  refine Run.comes_read ?_
  rw [h]
  exact Run.comes_pure v

theorem comes_lookUp_none {env : Environment} {name : String} (h : env.get? name = none) :
    (lookUp name).Comes env (.error (.failure ⟨.undefined "Variable" name, none⟩)) [] := by
  refine Run.comes_read ?_
  rw [h]
  exact Run.comes_fail _

theorem evalNode_of_comes {setting : Setting} {env : Environment} {n : Node}
    {x : Except Stop Value} {new : List Event}
    (h : (eval setting.host setting.rounds n).Comes env x new) :
    setting.evalNode env n = ⟨x.mapError .ofStop, env, new⟩ := by
  rw [Setting.evalNode, Setting.perform_eq, h, List.append_nil]

theorem silent_lookUp (name : String) (env : Environment) : (lookUp name).Silent env := by
  cases h : env.get? name with
  | none => exact ⟨_, comes_lookUp_none h⟩
  | some v => exact ⟨_, comes_lookUp_some h⟩

/-- An expression without calls leaves no trace, and comes to the same each time. -/
theorem silent_of_callFree {n : Node} (h : n.CallFree) (host : Host) (rounds : Nat)
    (env : Environment) : (eval host rounds n).Silent env := by
  refine callFree_induction ?misfit ?name ?literal ?negate ?binary h
  case misfit =>
    intro n f heval
    rw [heval]
    exact Run.Silent.located ⟨_, Run.comes_fail f⟩ _
  case name =>
    intro n text heval
    rw [heval]
    exact (silent_lookUp text env).located _
  case literal =>
    intro n kind text heval
    rw [heval]
    exact (Run.silent_ofExcept _).located _
  case negate =>
    intro operand place ih
    rw [eval]
    exact (ih.bind fun v => Run.silent_ofExcept _).located place
  case binary =>
    intro level lhs rhs op p place ihl ihr
    rw [eval_binary]
    exact (ihl.bind fun a => ihr.bind fun b => Run.silent_ofExcept _).located place

end Scriptlet
