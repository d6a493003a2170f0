import Scriptlet.Eval
import Scriptlet.Host.Standard
import Scriptlet.Source.Reading
/-!
# Workspaces

Running sources and nodes, and the workspace that a series of them shares: a host, the registry of
its functions, and one environment. Sources are read in the way of the language, or of another
grammar. A source that does not parse changes nothing; a run that fails keeps what it did before.
-/

namespace Scriptlet

/-- Why a source or a node came to no end. -/
inductive Problem where
  | unreadable (e : Source.SyntaxError)
  | failure (f : Failure)
  | grammarMissing (path : String)
  | outOfRounds
  deriving Repr

namespace Problem

def message : Problem → String
  | unreadable e => e.message
  | failure f => f.message
  | grammarMissing path => "grammar file not found: " ++ path
  | outOfRounds => "too many rounds"

/-- Whether a problem is one of the program that was run, and not of what runs it. -/
def ofProgram : Problem → Bool
  | unreadable _ => true
  | failure f => f.fault.isNative
  | grammarMissing _ | outOfRounds => false

def ofStop : Stop → Problem
  | .failure f => failure f
  | .outOfRounds => outOfRounds

end Problem

/-- A way to read sources: the tree that a source comes to, or why there is none. -/
def Reader : Type := String → Except Problem Node

/-- The reader of the language. -/
def Reader.own : Reader := fun source =>
  match Source.read source with
  | .ok program => .ok program.toNode
  | .error e => .error (.unreadable e)

theorem Reader.own_of_read {source : String} {program : Source.Program}
    (h : Source.read source = .ok program) : Reader.own source = .ok program.toNode := by
  simp only [own, h]

theorem Reader.own_of_unreadable {source : String} {e : Source.SyntaxError}
    (h : Source.read source = .error e) : Reader.own source = .error (.unreadable e) := by
  simp only [own, h]

/-- What a run came to, with the environment it left and its events, latest first. -/
structure Outcome (α : Type) where
  result : Except Problem α
  env : Environment
  log : List Event

namespace Outcome

/-- The text that a run printed. -/
def output {α : Type} (o : Outcome α) : String := Event.output o.log

def problem? {α : Type} (o : Outcome α) : Option Problem :=
  match o.result with
  | .ok _ => none
  | .error p => some p

end Outcome

/-- How to run programs: the host, and the rounds that a loop may take. -/
structure Setting where
  host : Host
  rounds : Nat

namespace Setting

/-- A setting whose loops are not cut short within any span of time that a run is waited for. -/
def ofHost (host : Host) : Setting := ⟨host, Nat.pow 10 18⟩

/-- Carry out a run in an environment. -/
def perform {α : Type} (env : Environment) (r : Run α) : Outcome α :=
  match r ⟨env, []⟩ with
  | (.ok a, s) => ⟨.ok a, s.env, s.log⟩
  | (.error stop, s) => ⟨.error (.ofStop stop), s.env, s.log⟩

theorem perform_eq {α : Type} (env : Environment) (r : Run α) :
    perform env r =
      ⟨(r ⟨env, []⟩).1.mapError .ofStop, (r ⟨env, []⟩).2.env, (r ⟨env, []⟩).2.log⟩ := by
  unfold perform
  rcases r ⟨env, []⟩ with ⟨_ | _, t⟩
  next => rfl
  next => rfl

/-- Evaluate a node in an environment. -/
def evalNode (setting : Setting) (env : Environment) (n : Node) : Outcome Value :=
  perform env (eval setting.host setting.rounds n)

/-- Run a source in an environment, when it is read in a given way. -/
def runBy (setting : Setting) (read : Reader) (env : Environment) (source : String) :
    Outcome Unit :=
  match read source with
  | .error p => ⟨.error p, env, []⟩
  | .ok n =>
    let o := setting.evalNode env n
    ⟨o.result.map fun _ => (), o.env, o.log⟩

/-- Run a source of the language in an environment. -/
def runSource (setting : Setting) (env : Environment) (source : String) : Outcome Unit :=
  setting.runBy .own env source

theorem runBy_of_read {setting : Setting} {read : Reader} {env : Environment} {source : String}
    {n : Node} (h : read source = .ok n) :
    setting.runBy read env source =
      ⟨((eval setting.host setting.rounds n ⟨env, []⟩).1.mapError .ofStop).map fun _ => (),
        (eval setting.host setting.rounds n ⟨env, []⟩).2.env,
        (eval setting.host setting.rounds n ⟨env, []⟩).2.log⟩ := by
  simp only [runBy, h, evalNode, perform_eq]

theorem runBy_of_unreadable {setting : Setting} {read : Reader} {env : Environment}
    {source : String} {p : Problem} (h : read source = .error p) :
    setting.runBy read env source = ⟨.error p, env, []⟩ := by
  simp only [runBy, h]

theorem runSource_of_read {setting : Setting} {env : Environment} {source : String}
    {program : Source.Program} (h : Source.read source = .ok program) :
    setting.runSource env source =
      ⟨((eval setting.host setting.rounds program.toNode ⟨env, []⟩).1.mapError .ofStop).map
          fun _ => (),
        (eval setting.host setting.rounds program.toNode ⟨env, []⟩).2.env,
        (eval setting.host setting.rounds program.toNode ⟨env, []⟩).2.log⟩ :=
  runBy_of_read (Reader.own_of_read h)

theorem runSource_of_unreadable {setting : Setting} {env : Environment} {source : String}
    {e : Source.SyntaxError} (h : Source.read source = .error e) :
    setting.runSource env source = ⟨.error (.unreadable e), env, []⟩ :=
  runBy_of_unreadable (Reader.own_of_unreadable h)

/-- Call a function of the host with values. -/
def callValue (setting : Setting) (c : Callable) (args : List Value) : Outcome Value :=
  perform .empty (invoke setting.host c args)

end Setting

structure Workspace where
  setting : Setting
  registry : Registry
  env : Environment

namespace Workspace

/-- A workspace with the standard functions and a new environment. -/
def standard : Workspace :=
  ⟨.ofHost .standard, .standard, Registry.standard.environment⟩

/-- Go on in a new environment. -/
def renew (w : Workspace) : Workspace := { w with env := w.registry.environment }

/-- Keep the environment that a run left. -/
def keep {α : Type} (w : Workspace) (o : Outcome α) : Workspace := { w with env := o.env }

def define (w : Workspace) (name : String) (v : Value) : Workspace :=
  { w with env := w.env.define name v }

/-- Lend one more function of the host, without binding it. -/
def lend (w : Workspace) (name : String) (arity : Option Nat) (f : Native) :
    Workspace × Callable :=
  let (host, c) := w.setting.host.lend name arity f
  ({ w with setting := { w.setting with host := host } }, c)

/-- Lend a function and bind it in the environment. -/
def extend (w : Workspace) (name : String) (arity : Option Nat) (f : Native) :
    Workspace × Callable :=
  let (w, c) := w.lend name arity f
  (w.define name (.callable c), c)

/-- Lend a function and register it for new environments. -/
def register (w : Workspace) (name : String) (arity : Option Nat) (f : Native) : Workspace :=
  let (w, c) := w.lend name arity f
  { w with registry := w.registry.put c }

/-- The value of a name; there is no place to report its absence at. -/
def get (w : Workspace) (name : String) : Except Problem Value :=
  match w.env.get? name with
  | some v => .ok v
  | none => .error (.failure ⟨.undefined "Variable" name, none⟩)

def userBindings (w : Workspace) : Environment := w.registry.userBindings w.env

/-- Run a source that is read in a given way. -/
def runBy (w : Workspace) (read : Reader) (source : String) : Outcome Unit :=
  w.setting.runBy read w.env source

def run (w : Workspace) (source : String) : Outcome Unit := w.setting.runSource w.env source

def evalNode (w : Workspace) (n : Node) : Outcome Value := w.setting.evalNode w.env n

end Workspace

end Scriptlet
