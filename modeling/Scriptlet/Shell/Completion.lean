import Scriptlet.Environment
import Scriptlet.Shell.Command
import Scriptlet.Text.Blank
/-!
# Completions

What can complete the text before the cursor: a command if the text begins with a slash, and else
the bound names that begin with the word the text ends in.
-/

namespace Scriptlet.Shell

structure Completion where
  text : String
  /-- How many characters before the cursor it replaces. -/
  replaces : Nat
  /-- A remark that is shown beside it. -/
  remark : String
  deriving DecidableEq, Repr

/-- The longest end of a text whose characters are all of a class. -/
def ending (inside : Char → Bool) (cs : List Char) : List Char :=
  (cs.reverse.takeWhile inside).reverse

def isNameChar (c : Char) : Bool := c.isAlphanum || c = '_'

/-- The word that a text ends in: characters of names if the last one is such, and else characters
that are neither of names nor blank. -/
def lastWord (cs : List Char) : List Char :=
  match ending isNameChar cs with
  | [] => ending (fun c => !isNameChar c && !Text.isBlank c) cs
  | word => word

/-- The completions of the text before the cursor. -/
def completions (env : Environment) (before : List Char) : List Completion :=
  match before with
  | '/' :: _ =>
    (Command.known.filter fun k => before.isPrefixOf k.1.toList).map fun k =>
      ⟨k.1, before.length, k.2.2⟩
  | _ =>
    match lastWord before with
    | [] => []
    | word =>
      (env.names.filter fun name => word.isPrefixOf name.toList).map fun name =>
        ⟨name, word.length, ""⟩

end Scriptlet.Shell
