import Scriptlet.Text.Blank
import Scriptlet.Workspace
/-!
# Shell commands

A text whose first character after blanks is a slash is a command to the shell, and its first word
says which.
-/

namespace Scriptlet.Shell

inductive Command where
  | clear
  | env
  | reset
  | unknown (word : String)
  deriving DecidableEq, Repr

/-- What a shell wrote to its two channels. -/
structure Written where
  out : String
  err : String
  deriving DecidableEq, Repr

namespace Written

def nothing : Written := ⟨"", ""⟩

def append (a b : Written) : Written := ⟨a.out ++ b.out, a.err ++ b.err⟩

end Written

namespace Command

/-- The commands, with their words and what they do. -/
def known : List (String × Command × String) :=
  [("/clear", clear, "Clear the terminal screen"),
   ("/env", env, "List user bindings"),
   ("/reset", reset, "Reset the REPL environment")]

/-- The command that a text is, if it is one. -/
def ofText? (text : String) : Option Command :=
  match Text.trim text.toList with
  | '/' :: cs =>
    let word := String.ofList (('/' :: cs).takeWhile (!Text.isBlank ·))
    some (((known.lookup word).map (·.1)).getD (unknown word))
  | _ => none

/-- The user's bindings, a line for each, sorted by name. -/
def listing (w : Workspace) : String :=
  let user := w.userBindings
  String.join (user.names.map fun name =>
    name ++ " = " ++ ((user.get? name).map Value.describe).getD "" ++ "\n")

/-- Carry out a command. -/
def perform (w : Workspace) : Command → Workspace × Written
  | clear => (w, ⟨"<clear>\n", ""⟩)
  | env => (w, ⟨listing w, ""⟩)
  | reset => (w.renew, ⟨"Environment reset.\n", ""⟩)
  | unknown word => (w, ⟨"", "Unknown command: " ++ word ++ "\n"⟩)

end Command

end Scriptlet.Shell
