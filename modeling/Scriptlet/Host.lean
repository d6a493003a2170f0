import Scriptlet.Fault
/-!
# Hosts

The functions that a host lends to programs. A function takes a list of values and replies with the
text it printed and an answer; how a host carries a function out is its own affair, so a `Host` is
no more than a table of them. Main statement: lending a function gives it an identity that no
function of the host had, and leaves the others as they were (`reply_lend_self`,
`reply_lend_of_lt`).
-/

namespace Scriptlet

/-- What a function of the host answers. -/
inductive Answer where
  | value (v : Value)
  /-- No value at all, which a program sees as `null`. -/
  | nothing
  /-- Something that is no value of the language. -/
  | foreign (typeName : String)
  /-- The calculation failed. -/
  | incomputable (reason : String)
  /-- The arguments were not acceptable. -/
  | rejected (reason : String)
  /-- Any other failure, which reaches the caller as it is. -/
  | fails (f : Fault)
  deriving Repr

structure Reply where
  output : String
  answer : Answer
  deriving Repr

abbrev Native := List Value → Reply

/-- A table of functions; the place of a function is its identity. -/
structure Host where
  natives : List Native

namespace Host

/-- What a function replies to arguments. A function that the host does not have answers nothing. -/
def reply (h : Host) (ident : Nat) (args : List Value) : Reply :=
  match h.natives[ident]? with
  | some f => f args
  | none => ⟨"", .nothing⟩

/-- Lend one more function under a name, with an identity of its own. -/
def lend (h : Host) (name : String) (arity : Option Nat) (f : Native) : Host × Callable :=
  (⟨h.natives ++ [f]⟩, ⟨h.natives.length, name, arity⟩)

theorem reply_lend_self (h : Host) (name : String) (arity : Option Nat) (f : Native)
    (args : List Value) :
    (h.lend name arity f).1.reply (h.lend name arity f).2.ident args = f args := by
  simp [lend, reply]

theorem reply_lend_of_lt (h : Host) (name : String) (arity : Option Nat) (f : Native)
    (args : List Value) {ident : Nat} (lt : ident < h.natives.length) :
    (h.lend name arity f).1.reply ident args = h.reply ident args := by
  simp [lend, reply, List.getElem?_append_left lt]

end Host

end Scriptlet
