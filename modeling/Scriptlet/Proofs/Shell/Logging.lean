import Scriptlet.Proofs.Auditing
import Scriptlet.Proofs.Shell.Standard
/-!
# Logging

The level of logging is asked for by an option or by the surroundings, and has a say in nothing but
what is written to standard error: two calls that differ in it alone exit alike, leave the same
environment and print the same (`quiet_call`). At the levels that ask for it, standard error holds
the records of the run, a line each, and a note if it failed. Main statement: these lines are those
of the completed assignments and resolved calls of the run, each once and in the order in which they
happened, and at the other levels there are none (`log_of_call`).
-/

namespace Scriptlet

def Record.line : Record → String
  | bind name v => "DEBUG lang_ref.eval.bind: bind " ++ name ++ " = " ++ v.describe ++ "\n"
  | call name count =>
    "DEBUG lang_ref.eval.chains: call " ++ name ++ " with " ++ toString count ++ " argument(s)\n"

/-- Something is done in the course of running a source in a workspace. -/
def Workspace.Performs (w : Workspace) (read : Reader) (source : String) (x : Act) : Prop :=
  ∃ n, read source = .ok n ∧ Performed w.setting.host w.setting.rounds n ⟨w.env, []⟩ x

namespace Shell

/-- The name of the level that a call is logged at, in upper case. -/
def levelName (o : Options) (s : Surroundings) : String :=
  let name := if o.verbose then "DEBUG" else s.level.getD "WARNING"
  String.ofList (name.toList.map upperLetter)

def Debugs (level : String) : Prop := level = "DEBUG" ∨ level = "NOTSET"

def Exit.note : Exit → String
  | message _ => "DEBUG lang_ref.runner: run failed\n<traceback>\n"
  | normal | escaped _ => ""

namespace Ending

def out (e : Ending) : String := String.join (e.entries.map (·.written.out))

def err (e : Ending) : String := String.join (e.entries.map (·.written.err))

end Ending

/-! ## Levels -/

instance (level : String) : Decidable (Debugs level) :=
  inferInstanceAs (Decidable (level = "DEBUG" ∨ level = "NOTSET"))

theorem logging_of_valid {o : Options} {s : Surroundings}
    (valid : levelName o s ∈ levels.map (·.1)) :
    logging o s = .ok (decide (Debugs (levelName o s))) := by
  have hlookup (name : String) (h : name ∈ levels.map (·.1)) :
      ∃ weight, levels.lookup name = some weight ∧
        decide (weight ≤ debugWeight) = decide (Debugs name) := by
    simp only [levels, List.map_cons, List.map_nil, List.mem_cons, List.not_mem_nil, or_false] at h
    rcases h with rfl | rfl | rfl | rfl | rfl | rfl | rfl | rfl <;> exact ⟨_, rfl, by decide⟩
  obtain ⟨weight, hweight, hdebugs⟩ := hlookup _ valid
  have hname : levelWeight? (if o.verbose then "DEBUG" else s.level.getD "WARNING") = some weight :=
    hweight
  rw [logging, ← hdebugs]
  simp only [hname]

/-! ## What logging leaves alone -/

def Console.withLogging (c : Console) (logging : Bool) : Console := { c with logging := logging }

/-- An entry without what was written to standard error. -/
def Entry.quiet (e : Entry) : Entry := { e with written := ⟨e.written.out, ""⟩ }

def Ending.quiet (e : Ending) : Ending := { e with entries := e.entries.map Entry.quiet }

section

variable {c d : Console} {debug : Bool} {stack : Stack}

theorem accept_withLogging (text : String) :
    ∃ written, (c.withLogging debug).accept text stack =
        ((c.accept text stack).1.withLogging debug, written, (c.accept text stack).2.2) ∧
      written.out = (c.accept text stack).2.1.out := by
  have hrun : (c.withLogging debug).run (normalize text) stack = c.run (normalize text) stack := rfl
  unfold Console.accept
  simp only [hrun]
  split
  · exact ⟨_, rfl, rfl⟩
  · split
    · exact ⟨_, rfl, rfl⟩
    · split
      · exact ⟨_, rfl, rfl⟩
      · split
        · exact ⟨_, rfl, rfl⟩
        · exact ⟨_, rfl, rfl⟩

/-- What becomes of a dialogue, apart from what is written to standard error. -/
def outline (turns : List (Entry × Console)) : List (Entry × Workspace) :=
  turns.map fun x => (x.1.quiet, x.2.work)

theorem turns_withLogging (typed : String) (lines : List (Option String)) :
    outline (turns (c.withLogging debug) typed lines stack) =
      outline (turns c typed lines stack) := by
  induction lines generalizing c typed with
  | nil => rfl
  | cons line lines ih =>
    cases line with
    | none => exact congrArg (List.cons _) (ih "")
    | some line =>
      rw [turns, turns, Console.enter, Console.enter]
      dsimp only
      by_cases hopen : 0 < braceDepth (typed ++ line)
      · rw [if_pos hopen, if_pos hopen]
        exact ih _
      · obtain ⟨written, haccept, hout⟩ := accept_withLogging (typed ++ line)
        rw [if_neg hopen, if_neg hopen, haccept]
        generalize c.accept (typed ++ line) stack = taken at hout ⊢
        obtain ⟨next, written', problem⟩ := taken
        have hentry : Entry.quiet ⟨.accepted (typed ++ line), written, problem⟩ =
            Entry.quiet ⟨.accepted (typed ++ line), written', problem⟩ :=
          congrArg (fun out => (⟨.accepted (typed ++ line), ⟨out, ""⟩, problem⟩ : Entry)) hout
        cases problem with
        | none => exact congrArg₂ List.cons (Prod.ext hentry rfl) (ih "")
        | some p => exact congrArg (fun e => [(e, next.work)]) hentry

theorem quiet_ofTurns {ts us : List (Entry × Console)} (hwork : c.work = d.work)
    (h : outline ts = outline us) : (Ending.ofTurns c ts).quiet = (Ending.ofTurns d us).quiet := by
  have hproblem : ts.findSome? (·.1.problem) = us.findSome? (·.1.problem) := by
    have hfind := congrArg (List.findSome? (·.1.problem)) h
    rw [outline, outline, List.findSome?_map, List.findSome?_map] at hfind
    exact hfind
  have hentries : (ts.map (·.1)).map Entry.quiet = (us.map (·.1)).map Entry.quiet := by
    have hmap := congrArg (List.map (·.1)) h
    rw [outline, outline, List.map_map, List.map_map] at hmap
    rw [List.map_map, List.map_map]
    exact hmap
  have hlast : ((ts.getLast?.map (·.2)).getD c).work = ((us.getLast?.map (·.2)).getD d).work := by
    have hget := congrArg (fun l => (l.getLast?.map (·.2)).getD c.work) h
    simp only [outline, List.getLast?_map, Option.map_map] at hget
    cases hts : ts.getLast? <;> cases hus : us.getLast? <;> simp_all
  unfold Ending.ofTurns Ending.quiet
  simp only [hproblem, hentries, hlast]

theorem quiet_runToEnd (source : String) :
    (runToEnd (c.withLogging debug) source stack).quiet = (runToEnd c source stack).quiet := by
  have hrun : (c.withLogging debug).run source stack = c.run source stack := rfl
  unfold runToEnd
  simp only [hrun]
  split
  · rfl
  · split
    · rfl
    · rfl

end

/-! ## Calls -/

section

variable {work : Workspace} {args args' : List String} {o : Options} {s : Surroundings}
  {verbose : Bool} {level : Option String} {source : String} {m : Machine} {stack : Stack}

/-- Calls that differ in what they ask for in logging differ in nothing but standard error. -/
theorem quiet_call (ho : Options.ofArgs args = .ok o)
    (ho' : Options.ofArgs args' = .ok { o with verbose := verbose })
    (valid : levelName o s ∈ levels.map (·.1))
    (valid' : levelName { o with verbose := verbose } { s with level := level } ∈
      levels.map (·.1)) :
    (call work args' { s with level := level } m).quiet = (call work args s m).quiet := by
  have hdebug := logging_of_valid valid
  have hdebug' := logging_of_valid valid'
  generalize decide (Debugs (levelName o s)) = debug at hdebug
  generalize decide (Debugs (levelName { o with verbose := verbose } { s with level := level })) =
    debug' at hdebug'
  have hsource : loadSource { o with verbose := verbose } { s with level := level } =
      loadSource o s := rfl
  cases hi : o.interactive with
  | true =>
    rw [call_of_interactive ho hdebug hi, call_of_interactive ho' hdebug' hi]
    have hturns : outline (turns ((consoleOf work o s m debug).withLogging debug') "" s.lines
        m.stack) = _ := turns_withLogging "" s.lines
    exact quiet_ofTurns rfl (congrArg (List.cons _) hturns)
  | false =>
    cases hs : loadSource o s with
    | error exit =>
      rw [call_of_no_source ho hdebug hi hs, call_of_no_source ho' hdebug' hi (hsource.trans hs)]
    | ok source =>
      rw [call_of_source ho hdebug hi hs, call_of_source ho' hdebug' hi (hsource.trans hs)]
      exact quiet_runToEnd (c := consoleOf work o s m debug) source

/-! ## Lines -/

theorem logLine?_eq (e : Event) : logLine? e = e.record?.map Record.line := by
  cases e <;> rfl

theorem logText_eq (log : List Event) :
    logText log = String.join ((Event.records log).map Record.line) := by
  have hline : logLine? = fun e => e.record?.map Record.line := funext logLine?_eq
  rw [logText, hline, Event.records, List.map_filterMap]

def exitOf : Option Problem → Exit
  | none => .normal
  | some p => if p.ofProgram then .message ("error: " ++ p.message) else .escaped p

theorem runToEnd_eq (c : Console) (source : String) :
    runToEnd c source stack =
      .plain (exitOf (c.run source stack).problem?)
        ((c.written (c.run source stack)).append
          ⟨"", if c.logging then (exitOf (c.run source stack).problem?).note else ""⟩)
        (c.run source stack).env := by
  have hsilent (exit : Exit) (h : exit.note = "") (w : Written) :
      w = w.append ⟨"", if c.logging then exit.note else ""⟩ := by
    rw [h, ite_self]
    simp [Written.append]
  unfold runToEnd
  dsimp only
  cases (c.run source stack).problem? with
  | none => exact congrArg (Ending.plain .normal · _) (hsilent .normal rfl _)
  | some p =>
    by_cases hprogram : p.ofProgram
    · simp only [exitOf, if_pos hprogram]
      rfl
    · simp only [exitOf, if_neg hprogram]
      exact congrArg (Ending.plain (.escaped p) · _) (hsilent (.escaped p) rfl _)

/-- What a run to the end of a source writes to standard error. -/
theorem err_runToEnd (c : Console) (source : String) (stack : Stack) :
    (runToEnd c source stack).err =
      if c.logging then
        String.join ((Event.records (c.run source stack).log).map Record.line) ++
          (runToEnd c source stack).exit.note
      else "" := by
  rw [runToEnd_eq, ← logText_eq]
  cases h : c.logging <;> simp [Ending.plain, Ending.err, Console.written, Written.append, h]

/-- A run that is not out of rounds records what is done in it. -/
theorem records_of_runBy (w : Workspace) {read : Reader} {source : String}
    (hends : (w.runBy read source).result ≠ .error .outOfRounds) :
    ∃ xs : List Act, (∀ x, x ∈ xs ↔ w.Performs read source x) ∧ xs.Pairwise Act.Before ∧
      Event.records (w.runBy read source).log = xs.map (·.record) := by
  cases hread : read source with
  | error p =>
    refine ⟨[], fun x => iff_of_false List.not_mem_nil ?_, .nil, ?_⟩
    · rintro ⟨n, hn, -⟩
      rw [hread] at hn
      cases hn
    · rw [Workspace.runBy, Setting.runBy_of_unreadable hread]
      rfl
  | ok n =>
    have hevals : (eval w.setting.host w.setting.rounds n).Ends ⟨w.env, []⟩ :=
      ends_of_runBy hread hends
    obtain ⟨xs, hxs⟩ := audited n ⟨w.env, []⟩ hevals
    rw [Workspace.runBy, Setting.runBy_of_read hread]
    refine ⟨xs, fun x => (hxs.complete x).trans ⟨fun hx => ⟨n, hread, hx⟩, ?_⟩,
      hxs.ordered, hxs.records.trans (List.nil_append _)⟩
    rintro ⟨n', hn, hx⟩
    rw [hread] at hn
    cases hn
    exact hx

theorem records_of_runToEnd (c : Console) {source : String}
    (hbound : stack.bound c.work.env source = none)
    (hends : (runToEnd c source stack).exit ≠ .escaped .outOfRounds) :
    ∃ xs : List Act, (∀ x, x ∈ xs ↔ c.work.Performs c.read source x) ∧
      xs.Pairwise Act.Before ∧ Event.records (c.run source stack).log = xs.map (·.record) := by
  have hrun : c.run source stack = c.work.runBy c.read source := Stack.hold_of_none hbound _
  rw [runToEnd_eq, hrun] at hends
  rw [hrun]
  refine records_of_runBy c.work fun hresult => hends ?_
  rw [Outcome.problem?, hresult]
  rfl

end

example :
    (call .standard ["-v", "x = Print(1) Pow(x)"] ⟨fun _ => none, "", none, false, []⟩).err =
      "DEBUG lang_ref.eval.chains: call Print with 1 argument(s)\n" ++
      "DEBUG lang_ref.eval.bind: bind x = null\n" ++
      "DEBUG lang_ref.eval.chains: call Pow with 1 argument(s)\n" ++
      "DEBUG lang_ref.runner: run failed\n<traceback>\n" := by
  decide +kernel

end Shell

end Scriptlet
