import Scriptlet.Shell.CommandLine
/-!
# The program

The command line against the real world: arguments, two variables of the surroundings, standard
input, files, and a prompt at which lines are typed.
-/

namespace Scriptlet.Main

open Scriptlet.Shell

/-- What a file gives, if it is there. -/
def input? (name : String) : IO (Option Input) := do
  try
    let raw ← IO.FS.readFile name
    pure (some (.text raw))
  catch
    | .noFileOrDirectory .. => pure none
    | e => pure (some (.denied "OSError" (toString e)))

/-- The rest of standard input. -/
partial def readRest (input : IO.FS.Stream) (before : String) : IO String := do
  let line ← input.getLine
  if line.isEmpty then pure before else readRest input (before ++ line)

/-- What standard input gives. -/
def inputRest : IO Input := do
  try
    pure (.text (← readRest (← IO.getStdin) ""))
  catch e => pure (.denied "OSError" (toString e))

def write (w : Written) : IO Unit := do
  let out ← IO.getStdout
  out.putStr w.out
  out.flush
  (← IO.getStderr).putStr w.err

/-- Take lines at the prompt until the input or the dialogue ends. -/
partial def prompt (c : Console) (typed : String) : IO Exit := do
  let out ← IO.getStdout
  out.putStr (if typed.isEmpty then ">>> " else "... ")
  out.flush
  let line ← (← IO.getStdin).getLine
  if line.isEmpty then
    out.putStr "\n"
    pure .normal
  else
    let bare := if line.endsWith "\n" then (line.dropEnd 1).toString else line
    match c.enter typed bare with
    | .more text => prompt c text
    | .taken entry next => do
      write entry.written
      match entry.problem with
      | some p => pure (.escaped p)
      | none => prompt next ""

/-- The files that the arguments may name. -/
def readFiles (args : List String) : IO (List (String × Input)) := do
  let named : List (Option String) := match Options.ofArgs args with
    | .ok o => [o.source, o.grammar]
    | .error _ => []
  let found ← (named.filterMap id).mapM fun name => do
    pure ((← input? name).map fun input => (name, input))
  pure (found.filterMap id)

/-- The status of an exit, whose message goes to standard error. -/
def status : Exit → IO UInt32
  | .normal => pure 0
  | .message text => do
    IO.eprintln text
    pure 1
  | .escaped p => do
    IO.eprintln p.message
    pure 1

def run (args : List String) : IO UInt32 := do
  let files ← readFiles args
  let level ← IO.getEnv levelVariable
  let trace ← IO.getEnv traceVariable
  let wantsInput := match Options.ofArgs args with
    | .ok o => !o.interactive && o.sourceName == stdinName
    | .error _ => false
  let stdin ← if wantsInput then inputRest else pure (.text "")
  let s : Surroundings := ⟨(files.lookup ·), stdin, level, (trace.getD "") != "", []⟩
  match task .standard args s with
  | .ok (.converse c) => do
    write ⟨banner, ""⟩
    status (← prompt c "")
  | _ => do
    let ending := call .standard args s
    for entry in ending.entries do
      write entry.written
    status ending.exit

end Scriptlet.Main

def main (args : List String) : IO UInt32 := Scriptlet.Main.run args
