import Scriptlet.Workspace
/-!
# The stack

A machine holds calls within calls up to some depth, and a run that goes deeper ends there. How deep
that is depends on the machine, so a stack is described by what it does to runs: it holds a run to
its end, or gives out after so many of its events. A run that is cut off keeps what it did before.
-/

namespace Scriptlet

/-- A run from an environment that is cut off after so many of its events. -/
def Outcome.cut {α : Type} (env : Environment) (count : Nat) (o : Outcome α) : Outcome α :=
  let log := o.log.drop (o.log.length - count)
  ⟨.error (.failure ⟨.stackOverflow, none⟩), env.overwrite (Event.bindings log), log⟩

/-- A run without events leaves nothing behind when it is cut off. -/
theorem env_cut_of_silent {α : Type} {o : Outcome α} (h : o.log = []) (env : Environment)
    (count : Nat) : (o.cut env count).env = env := by
  rw [Outcome.cut, h, List.drop_nil]
  rfl

/-- For the run of a source from an environment, the number of events after which the stack gives
out, if it does. -/
structure Stack where
  bound : Environment → String → Option Nat

namespace Stack

def boundless : Stack := ⟨fun _ _ => none⟩

/-- What the run of a source from an environment comes to on a stack. -/
def hold {α : Type} (stack : Stack) (env : Environment) (source : String) (o : Outcome α) :
    Outcome α :=
  match stack.bound env source with
  | none => o
  | some count => o.cut env count

@[simp] theorem hold_boundless {α : Type} (env : Environment) (source : String) (o : Outcome α) :
    boundless.hold env source o = o := rfl

theorem hold_of_bound {α : Type} {stack : Stack} {env : Environment} {source : String}
    {count : Nat} (h : stack.bound env source = some count) (o : Outcome α) :
    stack.hold env source o = o.cut env count := by
  rw [hold, h]

theorem hold_of_none {α : Type} {stack : Stack} {env : Environment} {source : String}
    (h : stack.bound env source = none) (o : Outcome α) : stack.hold env source o = o := by
  rw [hold, h]

end Stack

end Scriptlet
