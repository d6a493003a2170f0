import Scriptlet.Shell.Dialogue
import Scriptlet.Shell.Folder
/-!
# The command line

The arguments of the program and what it does with them. Options may stand anywhere; the one
argument that is no option is a source: the name of a file, a dash for standard input, or the text
itself. Reading the outside world is left to the caller, which hands in what a name or standard
input would give: a text, or the reason for which the machine does not give one, with which the
program ends as it ends with any other problem that is not one of the program that was run.
-/

namespace Scriptlet.Shell

/-- What an argument says, or two of them. -/
inductive Item where
  | verbose
  | interactive
  | grammar (path : String)
  /-- An option for a grammar with no path behind it. -/
  | bareGrammar
  | positional (arg : String)
  deriving DecidableEq, Repr

namespace Item

def grammarOption : String := "--grammar"

/-- The item that an argument is on its own. -/
def ofArg (arg : String) : Item :=
  let assigned := (grammarOption ++ "=").toList
  if arg = "-v" ∨ arg = "--verbose" then .verbose
  else if arg = "--repl" then .interactive
  else if assigned.isPrefixOf arg.toList then
    .grammar (String.ofList (arg.toList.drop assigned.length))
  else .positional arg

/-- The items of a list of arguments, from left to right. -/
def ofArgs : List String → List Item
  | [] => []
  | [arg] => [if arg = grammarOption then .bareGrammar else ofArg arg]
  | arg :: path :: args =>
    if arg = grammarOption then .grammar path :: ofArgs args
    else ofArg arg :: ofArgs (path :: args)

end Item

inductive UsageError where
  | unexpected (arg : String)
  | noGrammarPath
  deriving DecidableEq, Repr

def UsageError.message : UsageError → String
  | unexpected arg => "Unexpected argument: " ++ arg
  | noGrammarPath => "--grammar flag requires a path"

/-- What the arguments ask for. -/
structure Options where
  verbose : Bool
  interactive : Bool
  grammar : Option String
  source : Option String
  deriving DecidableEq, Repr

namespace Options

def none : Options := ⟨false, false, .none, .none⟩

/-- Take one more item; there can be only one source, and the last grammar counts. -/
def take (o : Options) : Item → Except UsageError Options
  | .verbose => .ok { o with verbose := true }
  | .interactive => .ok { o with interactive := true }
  | .grammar path => .ok { o with grammar := some path }
  | .bareGrammar => .error .noGrammarPath
  | .positional arg =>
    match o.source with
    | .none => .ok { o with source := some arg }
    | some _ => .error (.unexpected arg)

/-- The options that a list of arguments gives. -/
def ofArgs (args : List String) : Except UsageError Options :=
  (Item.ofArgs args).foldlM take none

end Options

/-- What surrounds a call of the program. -/
structure Surroundings where
  /-- What the file of a name gives, if there is one. -/
  file? : String → Option Input
  stdin : Input
  /-- The level of logging, if one is set. -/
  level : Option String
  /-- Whether a trace follows each report of the shell. -/
  tracing : Bool
  /-- What is typed, if the program turns out to be a dialogue. -/
  lines : List (Option String)

inductive Exit where
  | normal
  /-- The program gave up with a message. -/
  | message (text : String)
  /-- A problem that is not one of the program that was run. -/
  | escaped (p : Problem)
  deriving Repr

/-- How a call of the program ended: what it wrote, turn by turn, and the environment it left.
What is written before any prompt is in the first entry. -/
structure Ending where
  exit : Exit
  entries : List Entry
  env : Environment
  deriving Repr

namespace Ending

/-- An end without any prompt. -/
def plain (exit : Exit) (written : Written) (env : Environment) : Ending :=
  let problem := match exit with
    | .escaped p => some p
    | _ => none
  ⟨exit, [⟨.start, written, problem⟩], env⟩

/-- The end of a dialogue. -/
def ofTurns (c : Console) (turns : List (Entry × Console)) : Ending :=
  let last := (turns.getLast?.map (·.2)).getD c
  let exit := match turns.findSome? (·.1.problem) with
    | some p => Exit.escaped p
    | none => .normal
  ⟨exit, turns.map (·.1), last.work.env⟩

end Ending

def levelVariable : String := "LANG_REF_LOG_LEVEL"

def traceVariable : String := "LANG_REF_DEBUG_PY_TRACE"

/-- Whether the lines for debugging are written, or the message that the level is none. -/
def logging (o : Options) (s : Surroundings) : Except String Bool :=
  let name := if o.verbose then "DEBUG" else s.level.getD "WARNING"
  match levelWeight? name with
  | some weight => .ok (weight ≤ debugWeight)
  | none => .error ("Unknown log level in " ++ levelVariable ++ ": " ++ name)

/-- The name that stands for standard input. -/
def stdinName : String := "-"

/-- The source that the options name; an empty name, like none, is standard input. -/
def Options.sourceName (o : Options) : String :=
  match o.source with
  | some "" | .none => stdinName
  | some arg => arg

/-- What the machine gives for the source that the options name, unless there is no such file. -/
def Options.input? (o : Options) (s : Surroundings) : Option Input :=
  if o.sourceName = stdinName then some s.stdin else s.file? o.sourceName

/-- The source that the options ask for, or how the program exits for want of it. -/
def loadSource (o : Options) (s : Surroundings) : Except Exit String :=
  match o.input? s with
  | none => .ok o.sourceName
  | some input =>
    if o.sourceName = stdinName ∧ input = .text "" then
      .error (.message "No input provided on stdin")
    else input.read.mapError .escaped

/-- What the program stands on, apart from what surrounds a call. -/
structure Machine where
  /-- How sources are read by the grammar that a text describes, if it describes one. -/
  grammar : String → Except Problem Reader
  stack : Stack

namespace Machine

/-- A machine whose stack has no bound. It knows the grammar of the language by its heading. -/
def usual : Machine where
  grammar text :=
    if Folder.grammarHeading.toList.isPrefixOf text.toList then .ok .own
    else .error (.failure ⟨.denied "GrammarError" "not the grammar of the language", none⟩)
  stack := .boundless

/-- How sources are read when the options name a grammar; an empty path names none. What is wrong
with the grammar is noticed with the first source. -/
def grammar? (m : Machine) (o : Options) (s : Surroundings) : Option Reader :=
  match o.grammar with
  | none | some "" => none
  | some path =>
    let reader := match s.file? path with
      | none => .error (.grammarMissing path)
      | some input => input.read >>= m.grammar
    some fun source => reader >>= fun read => read source

/-- How sources are read. -/
def reader (m : Machine) (o : Options) (s : Surroundings) : Reader := (m.grammar? o s).getD .own

end Machine

/-- The end of a run of one source. -/
def runToEnd (c : Console) (source : String) (stack : Stack := .boundless) : Ending :=
  let o := c.run source stack
  let written := c.written o
  match o.problem? with
  | none => .plain .normal written o.env
  | some p =>
    if p.ofProgram then
      let note := if c.logging then "DEBUG lang_ref.runner: run failed\n<traceback>\n" else ""
      .plain (.message ("error: " ++ p.message)) (written.append ⟨"", note⟩) o.env
    else .plain (.escaped p) written o.env

/-- What the arguments call for: a dialogue, or a run of one source. -/
inductive Task where
  | converse (c : Console)
  | execute (c : Console) (source : String)

/-- The console of a call that logs or does not. -/
def consoleOf (work : Workspace) (o : Options) (s : Surroundings) (m : Machine) (debug : Bool) :
    Console :=
  ⟨work, debug, s.tracing, m.grammar? o s⟩

/-- What the program is called for, or how it exits without doing anything. -/
def task (work : Workspace) (args : List String) (s : Surroundings) (m : Machine := .usual) :
    Except Exit Task := do
  let o ← (Options.ofArgs args).mapError fun e => .message e.message
  let debug ← (logging o s).mapError .message
  let c := consoleOf work o s m debug
  if o.interactive then pure (.converse c)
  else
    let source ← loadSource o s
    pure (.execute c source)

/-- Call the program in a workspace. -/
def call (work : Workspace) (args : List String) (s : Surroundings) (m : Machine := .usual) :
    Ending :=
  match task work args s m with
  | .error exit => .plain exit .nothing work.env
  | .ok (.converse c) => .ofTurns c (dialogue c s.lines m.stack)
  | .ok (.execute c source) => runToEnd c source m.stack

/-! ## Calls with options -/

section

variable {work : Workspace} {args : List String} {s : Surroundings} {m : Machine} {o : Options}
  {debug : Bool} {source : String}

theorem task_of_options (ho : Options.ofArgs args = .ok o) :
    task work args s m = (logging o s).mapError .message >>= fun debug =>
      if o.interactive then pure (.converse (consoleOf work o s m debug))
      else loadSource o s >>= fun source =>
        pure (.execute (consoleOf work o s m debug) source) := by
  rw [task, ho]
  rfl

theorem call_of_unknown_level {text : String} (ho : Options.ofArgs args = .ok o)
    (hdebug : logging o s = .error text) :
    call work args s m = .plain (.message text) .nothing work.env := by
  rw [call, task_of_options ho, hdebug]
  rfl

theorem call_of_interactive (ho : Options.ofArgs args = .ok o) (hdebug : logging o s = .ok debug)
    (hconverse : o.interactive = true) :
    call work args s m = .ofTurns (consoleOf work o s m debug)
      (dialogue (consoleOf work o s m debug) s.lines m.stack) := by
  rw [call, task_of_options ho, hdebug, hconverse]
  rfl

theorem call_of_no_source {exit : Exit} (ho : Options.ofArgs args = .ok o)
    (hdebug : logging o s = .ok debug) (hrun : o.interactive = false)
    (hs : loadSource o s = .error exit) :
    call work args s m = .plain exit .nothing work.env := by
  rw [call, task_of_options ho, hdebug, hrun, hs]
  rfl

theorem call_of_source (ho : Options.ofArgs args = .ok o) (hdebug : logging o s = .ok debug)
    (hrun : o.interactive = false) (hs : loadSource o s = .ok source) :
    call work args s m = runToEnd (consoleOf work o s m debug) source m.stack := by
  rw [call, task_of_options ho, hdebug, hrun, hs]
  rfl

end

end Scriptlet.Shell
