import Scriptlet.Shell.Braces
import Scriptlet.Shell.Command
import Scriptlet.Shell.Log
import Scriptlet.Stack
/-!
# Dialogues

A shell that runs what is typed, one text after the other, in one workspace. A line that leaves a
block open is continued; otherwise what has been typed is accepted: a blank text is passed over, a
command is carried out, and anything else is run. A problem of the program is reported and the
dialogue goes on; any other problem ends it. Main statement: a text that cannot be read leaves the
workspace as it was (`accept_env_of_unreadable`).
-/

namespace Scriptlet.Shell

/-- What the shell needs to know, apart from what is typed. -/
structure Console where
  work : Workspace
  /-- Whether the lines for debugging are written. -/
  logging : Bool
  /-- Whether a trace follows each report. -/
  tracing : Bool
  /-- How sources are read, if a grammar was named for them. -/
  grammar : Option Reader

/-- The invisible characters that are dropped from what is typed. -/
def invisible : List Nat := [0x200b, 0x200c, 0x200d, 0xfeff, 0xa0, 0x0d]

/-- A text without invisible characters. -/
def normalize (text : String) : String :=
  String.ofList (text.toList.filter fun c => !invisible.contains c.toNat)

namespace Console

/-- The report of a problem. -/
def report (c : Console) (p : Problem) : String :=
  "Error: " ++ p.message ++ "\n" ++
    if c.tracing then "\nPython traceback:\n<traceback>\n" else ""

/-- How sources are read. -/
def read (c : Console) : Reader := c.grammar.getD .own

/-- Run a source in the workspace. -/
def run (c : Console) (source : String) (stack : Stack := .boundless) : Outcome Unit :=
  stack.hold c.work.env source (c.work.runBy c.read source)

/-- What the run wrote, logs included. -/
def written (c : Console) (o : Outcome Unit) : Written :=
  ⟨o.output, if c.logging then logText o.log else ""⟩

/-- Take an accepted text: the console after it, what was written, and the problem that ends the
dialogue if there is one. -/
def accept (c : Console) (text : String) (stack : Stack := .boundless) :
    Console × Written × Option Problem :=
  let clean := normalize text
  if clean.toList.all Text.isBlank then (c, .nothing, none)
  else
    match Command.ofText? clean with
    | some command =>
      let (work, written) := command.perform c.work
      ({ c with work := work }, written, none)
    | none =>
      let o := c.run clean stack
      let next := { c with work := c.work.keep o }
      match o.problem? with
      | none => (next, c.written o, none)
      | some p =>
        if p.ofProgram then (next, (c.written o).append ⟨"", c.report p⟩, none)
        else (next, c.written o, some p)

end Console

/-- What ended a prompt. -/
inductive Turn where
  /-- The time before the first prompt. -/
  | start
  | accepted (text : String)
  | interrupted (typed : String)
  | ended (typed : String)
  deriving DecidableEq, Repr

/-- A turn of a dialogue, what was written after it, and the problem that ended the dialogue. -/
structure Entry where
  turn : Turn
  written : Written
  problem : Option Problem
  deriving Repr

/-- What a new line of an open block begins with. -/
def continuation (depth : Int) : String :=
  String.ofList ('\n' :: List.replicate (4 * depth.toNat) ' ')

/-- What becomes of a line: more has to be typed, or the text was accepted. -/
inductive Response where
  | more (typed : String)
  | taken (entry : Entry) (next : Console)

/-- End a line behind what is typed at the prompt so far. -/
def Console.enter (c : Console) (typed line : String) (stack : Stack := .boundless) : Response :=
  let text := typed ++ line
  let depth := braceDepth text
  if 0 < depth then .more (text ++ continuation depth)
  else
    let (next, written, problem) := c.accept text stack
    .taken ⟨.accepted text, written, problem⟩ next

/-- The turns of a dialogue and the console after each, given what is typed at the prompt so far
and what comes: lines, and `none` for an interrupt. -/
def turns (c : Console) (typed : String) (lines : List (Option String))
    (stack : Stack := .boundless) : List (Entry × Console) :=
  match lines with
  | [] => [(⟨.ended typed, ⟨"\n", ""⟩, none⟩, c)]
  | none :: lines =>
    (⟨.interrupted typed, ⟨"KeyboardInterrupt\n", ""⟩, none⟩, c) :: turns c "" lines stack
  | some line :: lines =>
    match c.enter typed line stack with
    | .more text => turns c text lines stack
    | .taken entry next =>
      if entry.problem.isSome then [(entry, next)]
      else (entry, next) :: turns next "" lines stack

def banner : String := "lang repl - Ctrl-D to exit, / for commands\n"

/-- The whole dialogue, and the console after each turn. -/
def dialogue (c : Console) (lines : List (Option String)) (stack : Stack := .boundless) :
    List (Entry × Console) :=
  (⟨.start, ⟨banner, ""⟩, none⟩, c) :: turns c "" lines stack

theorem run_env_of_unreadable {c : Console} {source : String} {p : Problem}
    (h : c.read source = .error p) (stack : Stack) : (c.run source stack).env = c.work.env := by
  rw [Console.run, Workspace.runBy, Setting.runBy_of_unreadable h, Stack.hold]
  split
  · rfl
  · exact env_cut_of_silent rfl _ _

theorem accept_env_of_unreadable {c : Console} {text : String} {p : Problem}
    (hc : Command.ofText? (normalize text) = none) (h : c.read (normalize text) = .error p)
    (stack : Stack) : (c.accept text stack).1.work.env = c.work.env := by
  have hrun := run_env_of_unreadable h stack
  unfold Console.accept
  simp only [hc]
  split
  · rfl
  · split
    · exact hrun
    · split <;> exact hrun

end Scriptlet.Shell
