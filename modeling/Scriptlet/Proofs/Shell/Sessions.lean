import Scriptlet.Proofs.Bindings
import Scriptlet.Shell.Dialogue
/-!
# Sessions

A session goes from prompt to prompt, and whatever line breaks a text was typed with, it is the
accepted text alone that counts (`turns_eq_session`). What a text comes to is a `Deed`: nothing, a
command, or a source to run. Main statement, for sessions over which no problem escapes: the
environment after each turn is the one that the sources accepted since the last reset lead to from
a new one (`session_settles`).
-/

namespace Scriptlet

/-- The workspace with the environment that sources lead to from a new one, run one after the other
whatever becomes of each. -/
def Workspace.settled (w : Workspace) (read : Reader) (sources : List String) : Workspace :=
  let after := fun env source => (w.setting.runBy read env source).env
  { w with env := sources.foldl after w.registry.environment }

theorem settled_concat (w : Workspace) (read : Reader) (sources : List String) (source : String) :
    w.settled read (sources ++ [source]) =
      (w.settled read sources).keep ((w.settled read sources).runBy read source) := by
  rw [Workspace.settled, List.foldl_append]
  rfl

theorem keep_run_of_unreadable {w : Workspace} {read : Reader} {source : String} {p : Problem}
    (h : read source = .error p) : w.keep (w.runBy read source) = w := by
  rw [Workspace.keep, Workspace.runBy, Setting.runBy_of_unreadable h]

namespace Shell

/-! ## Prompts -/

/-- What a prompt comes to, as long as there is input. -/
inductive Prompt where
  | text (text : String)
  | interrupt (typed : String)
  deriving DecidableEq, Repr

def Prompt.turn : Prompt → Turn
  | text s => .accepted s
  | interrupt typed => .interrupted typed

/-- What the prompts come to when lines are typed, and what is typed at the last prompt. -/
def prompts (typed : String) : List (Option String) → List Prompt × String
  | [] => ([], typed)
  | none :: lines =>
    let (rest, last) := prompts "" lines
    (.interrupt typed :: rest, last)
  | some line :: lines =>
    let text := typed ++ line
    let depth := braceDepth text
    if 0 < depth then prompts (text ++ continuation depth) lines
    else
      let (rest, last) := prompts "" lines
      (.text text :: rest, last)

/-- The turns of a session, and the console after each, given what its prompts come to and what is
typed when the input ends. -/
def session (c : Console) (last : String) : List Prompt → List (Entry × Console)
  | [] => [(⟨.ended last, ⟨"\n", ""⟩, none⟩, c)]
  | .interrupt typed :: rest =>
    (⟨.interrupted typed, ⟨"KeyboardInterrupt\n", ""⟩, none⟩, c) :: session c last rest
  | .text text :: rest =>
    let taken := c.accept text
    (⟨.accepted text, taken.2.1, taken.2.2⟩, taken.1) ::
      if taken.2.2.isSome then [] else session taken.1 last rest

/-- The turns of a dialogue are those of a session, with the prompts that the lines come to. -/
theorem turns_eq_session (c : Console) (typed : String) (lines : List (Option String)) :
    turns c typed lines = session c (prompts typed lines).2 (prompts typed lines).1 := by
  induction lines generalizing c typed with
  | nil => rfl
  | cons line lines ih =>
    cases line with
    | none => exact congrArg (List.cons _) (ih c "")
    | some line =>
      rw [turns, Console.enter, prompts]
      dsimp only
      by_cases hopen : 0 < braceDepth (typed ++ line)
      · rw [if_pos hopen, if_pos hopen]
        exact ih c _
      · rw [if_neg hopen, if_neg hopen, session]
        -- what accepting the text gives does not matter here
        generalize c.accept (typed ++ line) = taken
        obtain ⟨next, written, problem⟩ := taken
        dsimp only
        rw [ih]
        cases problem with
        | none => rfl
        | some p => rfl

/-- The turns of a dialogue in which every prompt is answered. -/
def completeTurns (typed : String) (lines : List (Option String)) : List Turn :=
  (prompts typed lines).1.map Prompt.turn ++ [.ended (prompts typed lines).2]

/-- Prompts follow each other, whatever becomes of the texts, until the dialogue is over. -/
theorem turns_isPrefix_completeTurns (c : Console) (typed : String) (lines : List (Option String))
    (stack : Stack) :
    (turns c typed lines stack).map (·.1.turn) <+: completeTurns typed lines := by
  induction lines generalizing c typed with
  | nil => exact List.prefix_rfl
  | cons line lines ih =>
    cases line with
    | none => exact (List.prefix_cons_inj _).mpr (ih c "")
    | some line =>
      rw [turns, Console.enter, completeTurns, prompts]
      dsimp only
      by_cases hopen : 0 < braceDepth (typed ++ line)
      · rw [if_pos hopen, if_pos hopen]
        exact ih c _
      · rw [if_neg hopen, if_neg hopen]
        generalize c.accept (typed ++ line) stack = taken
        obtain ⟨next, written, problem⟩ := taken
        cases problem with
        | none => exact (List.prefix_cons_inj _).mpr (ih next "")
        | some p => exact (List.prefix_cons_inj _).mpr List.nil_prefix

/-! ## Deeds -/

inductive Deed where
  | nothing
  | command (k : Command)
  | source (text : String)
  deriving DecidableEq, Repr

namespace Deed

def ofText (text : String) : Deed :=
  let clean := normalize text
  if clean.toList.all Text.isBlank then nothing
  else
    match Command.ofText? clean with
    | some k => command k
    | none => source clean

/-- The sources that count after a deed: those that counted before, unless they are discarded, and
what is run. -/
def amend (sources : List String) : Deed → List String
  | command .reset => []
  | source text => sources ++ [text]
  | nothing | command .clear | command .env | command (.unknown _) => sources

end Deed

def Turn.deed : Turn → Deed
  | accepted text => .ofText text
  | start | interrupted _ | ended _ => .nothing

def inForce (turns : List Turn) : List String :=
  turns.foldl (fun sources turn => turn.deed.amend sources) []

/-- Do what is asked for: the console after it, what was written, and the problem that escapes. -/
def Console.carryOut (c : Console) : Deed → Console × Written × Option Problem
  | .nothing => (c, .nothing, none)
  | .command k => ({ c with work := (k.perform c.work).1 }, (k.perform c.work).2, none)
  | .source text =>
    let o := c.run text
    let next := { c with work := c.work.keep o }
    match o.problem? with
    | none => (next, c.written o, none)
    | some p =>
      if p.ofProgram then (next, (c.written o).append ⟨"", c.report p⟩, none)
      else (next, c.written o, some p)

/-- To accept a text is to do what it asks for. -/
theorem accept_eq (c : Console) (text : String) : c.accept text = c.carryOut (.ofText text) := by
  unfold Console.accept Deed.ofText
  dsimp only
  split
  · rfl
  · cases Command.ofText? (normalize text) with
    | none => rfl
    | some k => rfl

/-! ## One turn -/

/-- How a console answers a deed: what it writes, and what it goes on with. Nothing but the
environment of its workspace ever changes. -/
inductive Console.Answers (c : Console) : Deed → Written → Console → Prop where
  | nothing {written : Written} (h : written.err = "") : Answers c .nothing written c
  | command {k : Command} (hk : k ≠ .reset) : Answers c (.command k) (k.perform c.work).2 c
  | reset : Answers c (.command .reset) ⟨"Environment reset.\n", ""⟩ { c with work := c.work.renew }
  | unread {source : String} {p : Problem} (h : c.read source = .error p)
      (hprogram : p.ofProgram = true) : Answers c (.source source) ⟨"", c.report p⟩ c
  | run {source : String} {o : Outcome Unit} (ho : c.work.runBy c.read source = o)
      (henv : o.env = c.work.env.overwrite (Event.bindings o.log)) (hp : o.problem? = none) :
      Answers c (.source source) (c.written o) { c with work := c.work.keep o }
  | failed {source : String} {o : Outcome Unit} {n : Node} {p : Problem}
      (hread : c.read source = .ok n) (ho : c.work.runBy c.read source = o)
      (henv : o.env = c.work.env.overwrite (Event.bindings o.log)) (hp : o.problem? = some p)
      (hprogram : p.ofProgram = true) :
      Answers c (.source source) ((c.written o).append ⟨"", c.report p⟩)
        { c with work := c.work.keep o }

variable {c next : Console} {d : Deed} {written : Written}

theorem nothing_append (w : Written) : Written.nothing.append w = w := by
  simp [Written.append, Written.nothing]

theorem written_of_no_events (c : Console) {o : Outcome Unit} (h : o.log = []) :
    c.written o = .nothing := by
  unfold Console.written Outcome.output
  rw [h]
  cases c.logging <;> rfl

theorem answers_of_carryOut (h : (c.carryOut d).2.2 = none) :
    c.Answers d (c.carryOut d).2.1 (c.carryOut d).1 := by
  cases d with
  | nothing => exact .nothing rfl
  | command k =>
    cases k with
    | reset => exact .reset
    | clear | env | unknown => exact .command nofun
  | source source =>
    have hrun : c.run source = c.work.runBy c.read source := rfl
    unfold Console.carryOut at h ⊢
    dsimp only at h ⊢
    rw [hrun] at h ⊢
    have henv : (c.work.runBy c.read source).env =
        c.work.env.overwrite (Event.bindings (c.work.runBy c.read source).log) := by
      refine env_of_runBy fun hresult => ?_
      have hp : (c.work.runBy c.read source).problem? = some .outOfRounds := by
        rw [Outcome.problem?]
        exact hresult ▸ rfl
      rw [hp] at h
      cases h
    cases hread : c.read source with
    | error p =>
      have hunread : c.work.runBy c.read source = ⟨.error p, c.work.env, []⟩ :=
        Setting.runBy_of_unreadable hread
      rw [hunread] at h ⊢
      dsimp only [Outcome.problem?] at h ⊢
      split at h
      next hprogram =>
        rw [if_pos hprogram, written_of_no_events c rfl, nothing_append]
        exact .unread hread hprogram
      next => cases h
    | ok n =>
      cases hp : (c.work.runBy c.read source).problem? with
      | none => exact .run rfl henv hp
      | some p =>
        rw [hp] at h
        dsimp only at h ⊢
        split at h
        next hprogram =>
          rw [if_pos hprogram]
          exact .failed hread rfl henv hp hprogram
        next => cases h

/-- What is settled by some sources is settled by the next one, too, when it has been answered. -/
theorem Console.Answers.settled {w : Workspace} {sources : List String}
    (h : c.Answers d written next) (hc : c.work = w.settled c.read sources) :
    next.work = w.settled c.read (d.amend sources) := by
  have hsource : ∀ source,
      c.work.keep (c.work.runBy c.read source) = w.settled c.read (sources ++ [source]) := by
    intro source
    rw [settled_concat, hc]
  cases h with
  | nothing => exact hc
  | @command k hk =>
    cases k with
    | reset => exact absurd rfl hk
    | clear | env | unknown => exact hc
  | reset =>
    show c.work.renew = _
    rw [hc]
    rfl
  | unread h =>
    rw [Deed.amend, ← hsource, keep_run_of_unreadable h]
  | run ho => exact ho ▸ hsource _
  | failed _ ho => exact ho ▸ hsource _

/-- Sources go on being read as they were. -/
theorem Console.Answers.read (h : c.Answers d written next) : next.read = c.read := by
  cases h <;> rfl

/-! ## Whole sessions -/

def Console.behind (c : Console) (before : List (Entry × Console)) : Console :=
  before.foldl (fun _ x => x.2) c

theorem inForce_concat (turns : List Turn) (turn : Turn) :
    inForce (turns ++ [turn]) = turn.deed.amend (inForce turns) := by
  rw [inForce, List.foldl_append]
  rfl

/-- A session takes one prompt after the other. -/
theorem session_cons (c : Console) (last : String) (p : Prompt) (rest : List Prompt) :
    ∃ e next, session c last (p :: rest) =
        (e, next) :: (if e.problem.isSome then [] else session next last rest) ∧
      e.turn = p.turn ∧ (e.problem = none → c.Answers e.turn.deed e.written next) := by
  cases p with
  | interrupt typed => exact ⟨_, c, rfl, rfl, fun _ => .nothing rfl⟩
  | text text =>
    have hanswers : (c.accept text).2.2 = none →
        c.Answers (.ofText text) (c.accept text).2.1 (c.accept text).1 := by
      rw [accept_eq]
      exact answers_of_carryOut
    rw [session]
    generalize c.accept text = taken at hanswers ⊢
    obtain ⟨next, written, problem⟩ := taken
    exact ⟨⟨.accepted text, written, problem⟩, next, rfl, rfl, hanswers⟩

/-- Each turn settles the workspace, with the sources of the turns before it and its own, and is
answered by the console before it. -/
def Console.Advances (c : Console) (w : Workspace) (turns : List Turn)
    (entries : List (Entry × Console)) : Prop :=
  ∀ before e next after, entries = before ++ (e, next) :: after →
    next.work = w.settled c.read (inForce (turns ++ before.map (·.1.turn) ++ [e.turn])) ∧
      (c.behind before).Answers e.turn.deed e.written next

variable {w : Workspace} {turns : List Turn} {e : Entry} {entries : List (Entry × Console)}

theorem advances_nil : c.Advances w turns [] := by
  intro before e next after h
  exact absurd h.symm (List.append_ne_nil_of_right_ne_nil _ (List.cons_ne_nil _ _))

theorem work_of_answers (hc : c.work = w.settled c.read (inForce turns))
    (he : c.Answers e.turn.deed e.written next) :
    next.work = w.settled c.read (inForce (turns ++ [e.turn])) := by
  rw [inForce_concat]
  exact he.settled hc

theorem advances_cons (hnext : next.work = w.settled c.read (inForce (turns ++ [e.turn])))
    (he : c.Answers e.turn.deed e.written next) (h : next.Advances w (turns ++ [e.turn]) entries) :
    c.Advances w turns ((e, next) :: entries) := by
  intro before e' next' after heq
  rcases List.cons_eq_append_iff.mp heq with ⟨rfl, hhead⟩ | ⟨rest, rfl, hrest⟩
  · cases hhead
    rw [List.map_nil, List.append_nil]
    exact ⟨hnext, he⟩
  · have hlater := h rest e' next' after hrest
    rwa [List.append_assoc turns, he.read] at hlater

theorem advances_session {last : String} {prompts : List Prompt}
    (hc : c.work = w.settled c.read (inForce turns))
    (unescaped : ∀ x ∈ session c last prompts, x.1.problem = none) :
    (session c last prompts).map (·.1.turn) = prompts.map Prompt.turn ++ [.ended last] ∧
      c.Advances w turns (session c last prompts) := by
  induction prompts generalizing c turns with
  | nil =>
    let e : Entry := ⟨.ended last, ⟨"\n", ""⟩, none⟩
    have hanswer : c.Answers e.turn.deed e.written c := .nothing rfl
    exact ⟨rfl, advances_cons (work_of_answers hc hanswer) hanswer advances_nil⟩
  | cons p rest ih =>
    obtain ⟨e, next, heq, hturn, hanswers⟩ := session_cons c last p rest
    rw [heq] at unescaped ⊢
    obtain ⟨he, hrest⟩ := List.forall_mem_cons.mp unescaped
    have hgo : e.problem.isSome ≠ true := by
      rw [he]
      nofun
    rw [if_neg hgo] at hrest ⊢
    have hanswer := hanswers he
    have hnext := work_of_answers hc hanswer
    obtain ⟨hturns, hadvances⟩ := ih (hanswer.read ▸ hnext) hrest
    refine ⟨?_, advances_cons hnext hanswer hadvances⟩
    rw [List.map_cons, hturns, hturn]
    rfl

end Shell

end Scriptlet
