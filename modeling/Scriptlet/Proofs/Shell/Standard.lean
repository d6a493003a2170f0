import Scriptlet.Proofs.Escaping
import Scriptlet.Proofs.Shell.Sessions
import Scriptlet.Shell.CommandLine
/-!
# The shell with the standard functions

The standard functions fail in documented ways and bring in no whole number but words, so what a
call of the program or a text at the prompt can fall over is the source alone, or the machine, which
may deny the source or have no stack for its run. A console is `Standard` as long as nothing else
has come into its environment, and every turn of a dialogue leaves it so. Main statement:
`escapes_of_run`.
-/

namespace Scriptlet

/-! ## The standard functions -/

def Callable.Standard (c : Callable) : Prop := c ∈ Registry.standard.functions

/-- With as many arguments as it asks for, a standard function fails with faults of the
language only. -/
theorem standard_documented : Host.standard.Documented Callable.Standard := by
  intro c hc args f count h
  have hconvert : ∀ {v : Value} {g}, v.convert = .error g → Host.inconvertible g = .fails f →
      f.isNative = true := by
    intro v g hg hf
    rcases fault_of_convert hg with rfl | hclass
    · cases hf
    · rw [Host.inconvertible_of_class hclass] at hf
      cases hf
      exact native_of_class hclass nofun
  rcases List.mem_cons.mp hc with rfl | hc
  · have hpow : (Host.pow args).answer = .fails f := h
    unfold Host.pow at hpow
    split at hpow
    · split at hpow
      next => cases hpow
      next hb => exact hconvert hb hpow
      next he _ => exact hconvert he hpow
    next hargs =>
      obtain ⟨a, b, rfl⟩ := List.length_eq_two.mp (count 2 rfl)
      exact absurd rfl (hargs a b)
  · obtain rfl := List.mem_singleton.mp hc
    exact absurd h (Host.printLine_fails [] args (.value .null) f nofun)

/-- Nothing is bound but the standard functions and what programs make with them. -/
def Environment.Standard (env : Environment) : Prop := State.Sound Callable.Standard ⟨env, []⟩

theorem standard_environment : Registry.standard.environment.Standard := by
  refine ⟨fun name v hv => ?_, List.forall_mem_nil _⟩
  have hbindings : Registry.standard.environment.bindings =
      Registry.standard.functions.map fun c => (c.name, .callable c) := rfl
  have hmem := Environment.mem_of_get? hv
  rw [hbindings] at hmem
  obtain ⟨c, hc, hpair⟩ := List.mem_map.mp hmem
  cases hpair
  refine ⟨nofun, ?_⟩
  rintro d hd
  cases hd
  exact hc

/-- Programs come by standard functions only. -/
theorem standard_of_available {env : Environment} {c : Callable} (henv : env.Standard)
    (h : Available .standard env c) : c.Standard := by
  cases h with
  | bound h => exact (henv.bound _ _ h).within c rfl
  | answered _ _ h => exact ((sound_of_standard h).within c rfl).elim

section

variable {setting : Setting} {env : Environment} {source : String} {p : Problem}

/-- With the standard functions a problem is one of the program, or its source brings it about. -/
theorem problem_of_standard (host : setting.host = .standard) (henv : env.Standard)
    (h : (setting.runSource env source).result = .error p) :
    p.ofProgram = true ∨ Source.Escapes source p := by
  have hkept := sound_kept (K := Callable.Standard) (host ▸ standard_faithful _)
  have hdocumented : setting.host.Documented Callable.Standard := host ▸ standard_documented
  rcases problem_of_kept hkept State.Sound.assign hdocumented.sound henv h with
    hp | hp | ⟨f, -, -, n, hV, hn⟩
  · exact .inl hp
  · exact .inr hp
  · exact absurd (hV.word n rfl) hn

theorem standard_of_runSource (host : setting.host = .standard) (henv : env.Standard)
    (h : (setting.runSource env source).result ≠ .error .outOfRounds) :
    (setting.runSource env source).env.Standard := by
  have hkept := sound_kept (K := Callable.Standard) (host ▸ standard_faithful _)
  exact ⟨(state_of_runSource hkept State.Sound.assign henv h).bound, List.forall_mem_nil _⟩

end

/-- A problem, none of the program, with which the run of a source from an environment ends on a
stack. -/
inductive Stack.Fails (stack : Stack) (env : Environment) (source : String) : Problem → Prop where
  | escapes {p : Problem} (h : Source.Escapes source p) : Stack.Fails stack env source p
  | exhausted {count : Nat} (h : stack.bound env source = some count) :
      Stack.Fails stack env source (.failure ⟨.stackOverflow, none⟩)

/-- The problem of a run on a stack is that of the run, or the stack gives out. -/
theorem problem_of_hold {stack : Stack} {env : Environment} {source : String} {p : Problem}
    {o : Outcome Unit} (h : (stack.hold env source o).result = .error p) :
    o.result = .error p ∨ stack.Fails env source p := by
  cases hbound : stack.bound env source with
  | none =>
    rw [Stack.hold_of_none hbound] at h
    exact .inl h
  | some count =>
    rw [Stack.hold_of_bound hbound] at h
    cases h
    exact .inr (.exhausted hbound)

/-- The run of a source in a new workspace, with what its stack makes of it. -/
def Stack.run (stack : Stack) (source : String) : Outcome Unit :=
  stack.hold Workspace.standard.env source (Workspace.standard.run source)

namespace Shell

/-- A console with the standard functions, that has come by nothing else. -/
structure Console.Standard (c : Console) : Prop where
  host : c.work.setting.host = .standard
  registry : c.work.registry = .standard
  env : c.work.env.Standard
  read : c.read = .own

/-- How a call that is to run a source exits, given its options. If there is a run, it decides. -/
inductive Exit.Ends (o : Options) (s : Surroundings) (stack : Stack) : Exit → Prop where
  | level {text : String} (h : logging o s = .error text) : Exit.Ends o s stack (.message text)
  | noInput (hname : o.sourceName = stdinName) (h : s.stdin = .text "") :
      Exit.Ends o s stack (.message "No input provided on stdin")
  | denied {kind reason : String} (h : o.input? s = some (.denied kind reason)) :
      Exit.Ends o s stack (.escaped (.failure ⟨.denied kind reason, none⟩))
  | normal {source : String} (hs : loadSource o s = .ok source)
      (h : (stack.run source).problem? = none) : Exit.Ends o s stack .normal
  | error {source : String} {p : Problem} (hs : loadSource o s = .ok source)
      (h : (stack.run source).problem? = some p) (hprogram : p.ofProgram = true) :
      Exit.Ends o s stack (.message ("error: " ++ p.message))
  | escaped {source : String} {p : Problem} (hs : loadSource o s = .ok source)
      (h : (stack.run source).problem? = some p)
      (hfails : stack.Fails Workspace.standard.env source p) : Exit.Ends o s stack (.escaped p)

/-- How a dialogue may close: at the end of what is typed, or over an accepted text. -/
inductive Entry.Closes (stack : Stack) : Entry → Prop where
  | ended {typed : String} {written : Written} :
      Entry.Closes stack ⟨.ended typed, written, none⟩
  | escaped {text : String} {written : Written} {env : Environment} {p : Problem}
      (h : stack.Fails env (normalize text) p) :
      Entry.Closes stack ⟨.accepted text, written, some p⟩

section

variable {c : Console} {source text : String} {p : Problem} {stack : Stack}

theorem Console.Standard.run_eq (hc : c.Standard) :
    c.run source stack =
      stack.hold c.work.env source (c.work.setting.runSource c.work.env source) := by
  rw [Console.run, hc.read]
  rfl

theorem result_of_problem? {α : Type} {o : Outcome α} (h : o.problem? = some p) :
    o.result = .error p := by
  unfold Outcome.problem? at h
  split at h
  next => cases h
  next hp =>
    cases h
    exact hp

/-- The problem of a run at a console. -/
theorem Console.Standard.problem (hc : c.Standard) (h : (c.run source stack).problem? = some p) :
    p.ofProgram = true ∨ stack.Fails c.work.env source p := by
  have hresult := result_of_problem? h
  rw [hc.run_eq] at hresult
  rcases problem_of_hold hresult with hrun | hfails
  · exact (problem_of_standard hc.host hc.env hrun).imp_right .escapes
  · exact .inr hfails

/-- A console is standard after a run whose problem, if there is one, is one of the program. -/
theorem Console.Standard.keep (hc : c.Standard)
    (h : ∀ p, (c.run source stack).problem? = some p → p.ofProgram = true) :
    Console.Standard { c with work := c.work.keep (c.run source stack) } := by
  refine ⟨hc.host, hc.registry, ?_, hc.read⟩
  show (c.run source stack).env.Standard
  rw [hc.run_eq] at h ⊢
  cases hbound : stack.bound c.work.env source with
  | some count =>
    rw [Stack.hold_of_bound hbound] at h
    exact nomatch h _ rfl
  | none =>
    rw [Stack.hold_of_none hbound] at h ⊢
    refine standard_of_runSource hc.host hc.env fun hresult => ?_
    exact nomatch h .outOfRounds (by rw [Outcome.problem?, hresult])

theorem Console.Standard.perform (hc : c.Standard) (command : Command) :
    Console.Standard { c with work := (command.perform c.work).1 } := by
  cases command with
  | clear | env | unknown => exact hc
  | reset =>
    refine ⟨hc.host, hc.registry, ?_, hc.read⟩
    show c.work.registry.environment.Standard
    rw [hc.registry]
    exact standard_environment

/-- A text is taken without a problem and leaves the console standard, or its run fails. -/
theorem Console.Standard.accept (hc : c.Standard) (text : String) (stack : Stack) :
    (∃ next written, c.accept text stack = (next, written, none) ∧ next.Standard) ∨
      ∃ next written p, c.accept text stack = (next, written, some p) ∧
        stack.Fails c.work.env (normalize text) p := by
  unfold Console.accept
  dsimp only
  split
  next => exact .inl ⟨_, _, rfl, hc⟩
  next =>
    split
    next command _ => exact .inl ⟨_, _, rfl, hc.perform command⟩
    next =>
      split
      next hp =>
        refine .inl ⟨_, _, rfl, hc.keep fun p hproblem => ?_⟩
        rw [hp] at hproblem
        cases hproblem
      next p hp =>
        split
        next hprogram =>
          refine .inl ⟨_, _, rfl, hc.keep fun q hproblem => ?_⟩
          rw [hp] at hproblem
          cases hproblem
          exact hprogram
        next hprogram => exact .inr ⟨_, _, p, rfl, (hc.problem hp).resolve_left hprogram⟩

/-- From a standard console, prompts follow each other up to the last. -/
theorem Console.Standard.turns (hc : c.Standard) (typed : String) (lines : List (Option String))
    (stack : Stack) :
    ∃ before last, (turns c typed lines stack).map (·.1) = before ++ [last] ∧
      (∀ e ∈ before, e.problem = none) ∧ last.Closes stack := by
  induction lines generalizing c typed with
  | nil => exact ⟨[], _, rfl, List.forall_mem_nil _, .ended⟩
  | cons line lines ih =>
    cases line with
    | none =>
      obtain ⟨before, last, heq, hbefore, hlast⟩ := ih hc ""
      rw [Shell.turns, List.map_cons, heq]
      exact ⟨_ :: before, last, rfl, List.forall_mem_cons.mpr ⟨rfl, hbefore⟩, hlast⟩
    | some line =>
      rw [Shell.turns, Console.enter]
      dsimp only
      by_cases hopen : 0 < braceDepth (typed ++ line)
      · rw [if_pos hopen]
        exact ih hc _
      · rw [if_neg hopen]
        rcases hc.accept (typed ++ line) stack with
          ⟨next, written, htaken, hnext⟩ | ⟨next, written, p, htaken, hfails⟩
        · obtain ⟨before, last, heq, hbefore, hlast⟩ := ih hnext ""
          rw [htaken]
          dsimp only
          rw [Option.isSome_none, if_neg Bool.false_ne_true, List.map_cons, heq]
          exact ⟨_ :: before, last, rfl, List.forall_mem_cons.mpr ⟨rfl, hbefore⟩, hlast⟩
        · rw [htaken]
          dsimp only
          rw [Option.isSome_some, if_pos rfl]
          exact ⟨[], _, rfl, List.forall_mem_nil _, .escaped hfails⟩

/-! ## Calls -/

variable {args : List String} {s : Surroundings} {o : Options} {m : Machine} {work : Workspace}
  {debug : Bool}

/-- A source that cannot be had is one that nobody types in, or one that the machine denies. -/
theorem ends_of_loadSource {exit : Exit} (h : loadSource o s = .error exit) :
    exit.Ends o s stack := by
  unfold loadSource at h
  split at h
  next => cases h
  next input hinput =>
    split at h
    next hempty =>
      cases h
      rw [Options.input?, if_pos hempty.1] at hinput
      exact .noInput hempty.1 ((Option.some.inj hinput).trans hempty.2)
    next =>
      cases input with
      | text raw => cases h
      | denied kind reason =>
        cases h
        exact .denied hinput

/-- A call in a standard workspace is made at a standard console, if sources are read in the way of
the language. -/
theorem standard_consoleOf (hreader : m.reader o s = .own) :
    (consoleOf .standard o s m debug).Standard :=
  ⟨rfl, rfl, standard_environment, hreader⟩

/-- A run to the end of a source exits normally, with an error, or as it fails. -/
theorem ends_of_runToEnd (hreader : m.reader o s = .own) (hs : loadSource o s = .ok source) :
    (runToEnd (consoleOf .standard o s m debug) source m.stack).exit.Ends o s m.stack := by
  have hc : (consoleOf .standard o s m debug).Standard := standard_consoleOf hreader
  have hrun : (consoleOf .standard o s m debug).run source m.stack = m.stack.run source :=
    hc.run_eq
  have hproblem {p : Problem} (h : (m.stack.run source).problem? = some p) :
      p.ofProgram = true ∨ m.stack.Fails Workspace.standard.env source p :=
    hc.problem (hrun ▸ h)
  unfold runToEnd
  dsimp only
  rw [hrun]
  split
  next h => exact .normal hs h
  next p h =>
    split
    next hprogram => exact .error hs h hprogram
    next hprogram => exact .escaped hs h ((hproblem h).resolve_left hprogram)

/-- A source that the machine denies is not run, and not taken for a text either. -/
theorem exit_of_denied {kind reason : String} (ho : Options.ofArgs args = .ok o)
    (hdebug : logging o s = .ok debug) (hrun : o.interactive = false)
    (h : o.input? s = some (.denied kind reason)) :
    call work args s m =
      .plain (.escaped (.failure ⟨.denied kind reason, none⟩)) .nothing work.env := by
  refine call_of_no_source ho hdebug hrun ?_
  rw [loadSource, h]
  exact if_neg fun hempty => nomatch hempty.2

example :
    (call .standard ["."] ⟨(Folder.mk []).file?, "", none, false, []⟩).exit =
      .escaped (.failure ⟨.denied "IsADirectoryError" "[Errno 21] Is a directory: '.'", none⟩) :=
  rfl

theorem ends_of_call (ho : Options.ofArgs args = .ok o) (hreader : m.reader o s = .own)
    (hrun : o.interactive = false) : (call .standard args s m).exit.Ends o s m.stack := by
  cases hdebug : logging o s with
  | error text =>
    rw [call_of_unknown_level ho hdebug]
    exact .level hdebug
  | ok debug =>
    cases hs : loadSource o s with
    | error exit =>
      rw [call_of_no_source ho hdebug hrun hs]
      exact ends_of_loadSource hs
    | ok source =>
      rw [call_of_source ho hdebug hrun hs]
      exact ends_of_runToEnd hreader hs

theorem turns_of_call (ho : Options.ofArgs args = .ok o) (hconverse : o.interactive = true)
    (hdebug : logging o s = .ok debug) :
    (call work args s m).entries.map (·.turn) <+: .start :: completeTurns "" s.lines := by
  rw [call_of_interactive ho hdebug hconverse, Ending.ofTurns, dialogue, List.map_map,
    List.map_cons]
  exact (List.prefix_cons_inj _).mpr (turns_isPrefix_completeTurns _ "" s.lines m.stack)

theorem closes_of_call (ho : Options.ofArgs args = .ok o) (hreader : m.reader o s = .own)
    (hconverse : o.interactive = true) (hdebug : logging o s = .ok debug) :
    ∃ before last, (call .standard args s m).entries = before ++ [last] ∧
      (∀ e ∈ before, e.problem = none) ∧ last.Closes m.stack := by
  have hc : (consoleOf .standard o s m debug).Standard := standard_consoleOf hreader
  obtain ⟨before, last, heq, hbefore, hlast⟩ := hc.turns "" s.lines m.stack
  rw [call_of_interactive ho hdebug hconverse, Ending.ofTurns, dialogue, List.map_cons, heq]
  exact ⟨_ :: before, last, rfl, List.forall_mem_cons.mpr ⟨rfl, hbefore⟩, hlast⟩

end

end Shell

end Scriptlet
