import Scriptlet.Text.Lines
import Scriptlet.Text.Quoted
import Scriptlet.Workspace
/-!
# Texts from outside

The machine is asked for a text and gives it, or says why not. A folder of files without folders in
it gives all that it has: a path that leads to a file is made of names between slashes, of which
empty ones and single dots say nothing. It denies itself, and a path that is too long.
-/

namespace Scriptlet.Shell

/-- The text of a file as the program reads it. -/
def fileText (raw : String) : String := String.ofList (Text.unifyLineEnds raw.toList)

/-- What the machine answers when it is asked for a text. -/
inductive Input where
  | text (raw : String)
  /-- There is something, but it is not given: it has no readable text, or a name that is not looked
  up. -/
  | denied (kind reason : String)
  deriving DecidableEq, Repr

namespace Input

instance : Coe String Input := ⟨text⟩

def read : Input → Except Problem String
  | text raw => .ok (fileText raw)
  | denied kind reason => .error (.failure ⟨.denied kind reason, none⟩)

end Input

/-- The files of a folder by name. -/
structure Folder where
  files : List (String × String)

namespace Folder

/-- The names in a path that say something. -/
def names (path : String) : List (List Char) :=
  (splitAt path.toList).filter fun name => name ≠ [] ∧ name ≠ ['.']
where
  splitAt : List Char → List (List Char)
    | [] => [[]]
    | c :: cs =>
      match splitAt cs with
      | [] => [[c]]
      | name :: more => if c = '/' then [] :: name :: more else (c :: name) :: more

/-- A path as a report shows it. -/
def shown (path : String) : String :=
  let bare := String.intercalate "/" ((names path).map String.ofList)
  if path.toList.head? = some '/' then "/" ++ bare else if bare = "" then "." else bare

/-- How many bytes a name may have that is looked up. -/
def nameLimit : Nat := 255

def pathLimit : Nat := 4095

/-- Why a path is denied, if it is. Of the names in it only the first one is looked up, for there is
no folder in which to look for the others. -/
def denial? (path : String) : Option Input :=
  if (names path).all (· == ['.', '.']) then
    some (.denied "IsADirectoryError" ("[Errno 21] Is a directory: " ++ Text.quoted (shown path)))
  else if pathLimit < (shown path).utf8ByteSize ||
      (names path).head?.any fun name => nameLimit < (String.ofList name).utf8ByteSize then
    some (.denied "OSError" ("[Errno 36] File name too long: " ++ Text.quoted (shown path)))
  else none

/-- What a path leads to in a folder. Other places than the folder are not looked at. -/
def file? (f : Folder) (path : String) : Option Input :=
  (denial? path).or <|
    if path.toList.head? = some '/' then none
    else (f.files.find? fun file => names file.1 == names path).map fun file => .text file.2

/-- How a grammar file begins. Read as a program, a grammar goes no further than its first line. -/
def grammarHeading : String :=
  "// Lang surface grammar. Rule labels are the node kinds the evaluator dispatches on.\n"

end Folder

end Scriptlet.Shell
