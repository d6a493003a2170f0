import Scriptlet.Environment
import Scriptlet.Host
/-!
# Runs

What a calculation of the evaluator is: it starts in a state, and ends in a state with a value, with
a failure, or with the number of rounds that a loop was allowed used up. The state holds the
environment and a log of everything that can be seen of the run. A failure keeps the state it
happened in. Main statements: a bind runs its second part in the state that the first one left, and
only if that one gave a value (`bind_apply`), and runs form a lawful monad.
-/

namespace Scriptlet

/-- One step of a run that an observer can see. -/
inductive Event where
  /-- A name was bound. -/
  | bind (name : String) (v : Value)
  /-- A call found its function, and is about to be made. -/
  | call (name : String) (count : Nat)
  /-- A host function was entered. -/
  | enter (c : Callable) (args : List Value)
  /-- Text was printed. -/
  | print (text : String)
  deriving Repr

/-- The environment, and the events so far, latest first. -/
structure State where
  env : Environment
  log : List Event
  deriving Inhabited, Repr

/-- Why a run stopped before its end. -/
inductive Stop where
  | failure (f : Failure)
  | outOfRounds
  deriving Repr

/-- A calculation from a state to a value, or to why it stopped, and a state. -/
def Run (α : Type) : Type := State → Except Stop α × State

namespace Run

instance : Monad Run where
  pure a := fun s => (.ok a, s)
  bind r k := fun s =>
    match r s with
    | (.ok a, s') => k a s'
    | (.error stop, s') => (.error stop, s')

theorem pure_apply {α : Type} (a : α) (s : State) : (pure a : Run α) s = (.ok a, s) := rfl

theorem bind_apply {α β : Type} (r : Run α) (k : α → Run β) (s : State) :
    (r >>= k) s =
      match r s with
      | (.ok a, s') => k a s'
      | (.error stop, s') => (.error stop, s') := rfl

theorem bind_ok {α β : Type} {r : Run α} {s s' : State} {a : α} (h : r s = (.ok a, s'))
    (k : α → Run β) : (r >>= k) s = k a s' := by
  rw [bind_apply, h]

theorem bind_error {α β : Type} {r : Run α} {s s' : State} {stop : Stop}
    (h : r s = (.error stop, s')) (k : α → Run β) : (r >>= k) s = (.error stop, s') := by
  rw [bind_apply, h]

theorem map_id_eq {α : Type} (r : Run α) : id <$> r = r := by
  funext s
  show (r >>= fun a => pure (id a)) s = r s
  rw [bind_apply]
  split <;> simp_all [pure_apply]

theorem bind_assoc_eq {α β γ : Type} (r : Run α) (f : α → Run β) (g : β → Run γ) :
    r >>= f >>= g = r >>= fun a => f a >>= g := by
  funext s
  simp only [bind_apply]
  cases r s with
  | mk outcome s' => cases outcome <;> rfl

instance : LawfulMonad Run :=
  LawfulMonad.mk' Run map_id_eq (fun _ _ => rfl) bind_assoc_eq

/-- Stop before the end. -/
def stop {α : Type} (why : Stop) : Run α := fun s => (.error why, s)

def fail {α : Type} (f : Fault) : Run α := stop (.failure ⟨f, none⟩)

def ofExcept {α : Type} : Except Fault α → Run α
  | .ok a => pure a
  | .error f => fail f

def record (e : Event) : Run Unit := fun s => (.ok (), { s with log := e :: s.log })

/-- Print a text, if there is any. -/
def print (text : String) : Run Unit := if text.isEmpty then pure () else record (.print text)

def environment : Run Environment := fun s => (.ok s.env, s)

/-- Bind a name, and say so. -/
def bind (name : String) (v : Value) : Run Unit := fun s =>
  (.ok (), { env := s.env.define name v, log := .bind name v :: s.log })

/-- The run of a node at a place: a failure that comes out of it may take its location. -/
def located {α : Type} (place : Place) (r : Run α) : Run α := fun s =>
  match r s with
  | (.error (.failure f), s') => (.error (.failure (f.leaving place)), s')
  | outcome => outcome

/-- Run `body` until `check`, which follows each time, says no. -/
def repeatWhile (check : Run Bool) (body : Run Unit) : Nat → Run Unit
  | 0 => stop .outOfRounds
  | rounds + 1 => do
    body
    if ← check then repeatWhile check body rounds

end Run

namespace Event

/-- The texts printed in a log whose latest event comes first, joined. -/
def output (log : List Event) : String :=
  String.join (log.reverse.filterMap fun
    | print text => some text
    | _ => none)

/-- The bindings of a log whose latest event comes first, in the order in which they were made. -/
def bindings (log : List Event) : List (String × Value) :=
  log.reverse.filterMap fun
    | bind name v => some (name, v)
    | _ => none

end Event

end Scriptlet
