import Scriptlet.Proofs.Layout
import Scriptlet.Proofs.Tracking
/-!
# What a run depends on

A run reads the names that its tree mentions, and binds those among them that are targets. Main
statements: from environments that agree on the names mentioned, a node diverges from both or comes
to outcomes that nothing but the other names tells apart (`tallies_of_agree`); and statement lists
that do not touch each other's targets can be run in either order (`sequence_commutes`).
-/

namespace Scriptlet

open Run

/-- The second state has the values of the first one for some names, and has events before its. -/
structure State.Agrees (N : String → Prop) (base : List Event) (s s' : State) : Prop where
  get? (name : String) (hname : N name) : s'.env.get? name = s.env.get? name
  log : s'.log = s.log ++ base

theorem coupled_agrees (N : String → Prop) (base : List Event) :
    Coupled N (State.Agrees N base) where
  get? h := h.get? _
  record e h := ⟨h.get?, congrArg (e :: ·) h.log⟩
  assign name v h := by
    refine ⟨fun key hkey => ?_, congrArg (Event.bind name v :: ·) h.log⟩
    show (Environment.define _ name v).get? key = (Environment.define _ name v).get? key
    rw [Environment.get?_define, Environment.get?_define, h.get? key hkey]

variable {host : Host} {rounds : Nat} {env env' : Environment} {n : Node} {o o' : Outcome Value}

/-- A name that is no target has the value at the end of a run that it had at the start. -/
theorem get?_of_ends {s : State} (hends : (eval host rounds n).Ends s) {name : String}
    (h : ¬ n.Mentions .target name) :
    (eval host rounds n s).2.env.get? name = s.env.get? name :=
  state_of_lands hends ((keeps_get? h s rfl).weaken fun _ _ _ ht => ht.1)

/-! ## Environments that agree -/

def Host.Diverges (host : Host) (env : Environment) (n : Node) : Prop :=
  ∀ rounds, ((Setting.mk host rounds).evalNode env n).result = .error .outOfRounds

/-- Outcomes of a node in two environments that only names it does not mention can tell apart. -/
structure Outcome.Tallies (n : Node) (env env' : Environment) (o o' : Outcome Value) : Prop where
  result : o'.result = o.result
  log : o'.log = o.log
  output : o'.output = o.output
  /-- Names with the same value in both environments have the same value in both at the end. -/
  agree (name : String) (h : env'.get? name = env.get? name) :
    o'.env.get? name = o.env.get? name
  /-- No name but a target has another value at the end. -/
  untouched (name : String) (h : ¬ n.Mentions .target name) :
    o.env.get? name = env.get? name ∧ o'.env.get? name = env'.get? name

theorem tallies_of_evaluates
    (hagree : ∀ role name, n.Mentions role name → env'.get? name = env.get? name)
    (h : host.Evaluates env n o) :
    ∃ o', host.Evaluates env' n o' ∧ Outcome.Tallies n env env' o o' := by
  obtain ⟨rounds, rfl, hresult⟩ := h
  have hends := ends_iff_result.mpr hresult
  have htracks : TracksSelf host rounds rounds
      (State.Agrees (fun name => env'.get? name = env.get? name) []) n :=
    tracks_eval (coupled_agrees _ _) (le_refl rounds) hagree
  have hstart : State.Agrees (fun name => env'.get? name = env.get? name) [] ⟨env, []⟩ ⟨env', []⟩ :=
    ⟨fun _ h => h, rfl⟩
  obtain ⟨hsame, hagrees⟩ := Tracks.apply htracks hstart hends
  have hends' : (eval host rounds n).Ends ⟨env', []⟩ := by
    intro t ht
    rw [ht] at hsame
    exact hends (eval host rounds n ⟨env, []⟩).2 (Prod.ext hsame.symm rfl)
  have hlog := hagrees.log.trans (List.append_nil _)
  refine ⟨_, ⟨rounds, rfl, ends_iff_result.mp hends'⟩, ?_⟩
  simp only [Setting.evalNode, Setting.perform_eq]
  exact {
    result := congrArg (Except.mapError Problem.ofStop) hsame
    log := hlog
    output := congrArg Event.output hlog
    agree := hagrees.get?
    untouched := fun name hname => ⟨get?_of_ends hends hname, get?_of_ends hends' hname⟩ }

/-- A node is run in two environments that agree on the names it mentions. It diverges in both, or
comes to the same value or the same failure in both, with the same output and the same values for
those names; and all other names are as they were. -/
theorem tallies_of_agree (host : Host)
    (hagree : ∀ role name, n.Mentions role name → env'.get? name = env.get? name) :
    (host.Diverges env n ∧ host.Diverges env' n) ∨
      ∃ o o', host.Evaluates env n o ∧ host.Evaluates env' n o' ∧
        Outcome.Tallies n env env' o o' := by
  by_cases hends : ∃ o, host.Evaluates env n o
  · obtain ⟨o, ho⟩ := hends
    obtain ⟨o', ho', htallies⟩ := tallies_of_evaluates hagree ho
    exact .inr ⟨o, o', ho, ho', htallies⟩
  · refine .inl ⟨fun rounds => ?_, fun rounds => ?_⟩
    · by_contra hresult
      exact hends ⟨_, rounds, rfl, hresult⟩
    · by_contra hresult
      obtain ⟨o, ho, -⟩ := tallies_of_evaluates (fun role name h => (hagree role name h).symm)
        ⟨rounds, rfl, hresult⟩
      exact hends ⟨o, ho⟩

/-- A loop, in two environments that differ in a name it does not mention. -/
theorem tallies_of_agree_loop :
    let source := "i = 0 while i < 3 \x7b Print(i) i = i + 1 \x7d"
    let env := Registry.standard.environment.define "z" (.int 1)
    let env' := Registry.standard.environment.define "z" (.int 2)
    ∃ program, Source.read source = .ok program ∧
      (∀ role name, program.toNode.Mentions role name → env'.get? name = env.get? name) ∧
      ∃ o o', Host.standard.Evaluates env program.toNode o ∧
        Host.standard.Evaluates env' program.toNode o' ∧
        Outcome.Tallies program.toNode env env' o o' := by
  intro source env env'
  obtain ⟨program, hread, hprogram⟩ : ∃ program, Source.read source = .ok program ∧
      (program.toNode.mentions.all (·.2 ≠ "z") &&
        ((Setting.mk .standard 3).evalNode env program.toNode).problem?.isNone) = true :=
    Source.exists_of_any (by decide +kernel)
  obtain ⟨hnames, hends⟩ := Bool.and_eq_true_iff.mp hprogram
  have hagree : ∀ role name, program.toNode.Mentions role name →
      env'.get? name = env.get? name := by
    intro role name h
    have hne : name ≠ "z" := of_decide_eq_true (List.all_eq_true.mp hnames _ (mem_mentions h))
    rw [Environment.get?_define_of_ne _ _ hne, Environment.get?_define_of_ne _ _ hne]
  refine ⟨program, hread, hagree, ?_⟩
  rcases tallies_of_agree Host.standard hagree with ⟨hdiverges, -⟩ | h
  · have hresult := hdiverges 3
    rw [Outcome.problem?, hresult] at hends
    cases hends
  · exact h

/-! ## Statement lists -/

/-- Statements one after the other, as a program that stands nowhere. -/
def Node.sequence (ns : List Node) : Node := .tree .program ns .unknown

def Node.Spares (n m : Node) : Prop :=
  ∀ name, n.Mentions .target name → ∀ role, ¬ m.Mentions role name

/-- Whether no target in a list of mentions is in another list. -/
def spares (xs ys : List (Role × String)) : Bool :=
  xs.all fun x => x.1 != .target || ys.all (·.2 != x.2)

theorem spares_of_mentions {n m : Node} (h : spares n.mentions m.mentions = true) : n.Spares m := by
  intro name htarget role hname
  have hx := List.all_eq_true.mp h _ (mem_mentions htarget)
  simp only [bne_self_eq_false, Bool.false_or] at hx
  simpa using List.all_eq_true.mp hx _ (mem_mentions hname)

theorem output_append (log log' : List Event) :
    Event.output (log' ++ log) = Event.output log ++ Event.output log' := by
  rw [Event.output, Event.output, Event.output, List.reverse_append, List.filterMap_append,
    String.join_append]

section

variable {as bs : List Node} {s t u : State} {v w : Value}

/-- A sequence comes to null, when all its statements have come to a value. -/
theorem eval_sequence_eq_ok :
    eval host rounds (.sequence as) s = (.ok v, t) ↔
      evalAll host rounds as s = (.ok (), t) ∧ v = .null := by
  rw [Node.sequence, eval_statements host rounds (.inl rfl), located, bind_apply]
  rcases evalAll host rounds as s with ⟨stop | _, t'⟩
  · cases stop <;> simp
  · simp [pure_apply, eq_comm, and_comm]

theorem eval_sequence_append (ha : eval host rounds (.sequence as) s = (.ok v, t))
    (hb : eval host rounds (.sequence bs) t = (.ok w, u)) :
    eval host rounds (.sequence (as ++ bs)) s = (.ok .null, u) := by
  rw [eval_sequence_eq_ok] at ha hb ⊢
  rw [evalAll_append, bind_ok ha.1, hb.1]
  exact ⟨rfl, rfl⟩

end

/-- A node that comes to a value comes to it with rounds enough. -/
theorem Host.Evaluates.eval_eq_ok (h : host.Evaluates env n o) (hok : o.problem? = none) :
    ∃ v enough, ∀ rounds, enough ≤ rounds →
      eval host rounds n ⟨env, []⟩ = (.ok v, ⟨o.env, o.log⟩) := by
  obtain ⟨enough, hrounds⟩ := h.of_le
  obtain ⟨v, hv⟩ : ∃ v, o.result = .ok v := by
    rw [Outcome.problem?] at hok
    split at hok
    next v hv => exact ⟨v, hv⟩
    next => cases hok
  refine ⟨v, enough, fun rounds hle => ?_⟩
  have ho := hrounds rounds hle
  rw [Setting.evalNode, Setting.perform_eq] at ho
  subst ho
  rcases hr : eval host rounds n ⟨env, []⟩ with ⟨stop | w, t⟩
  · rw [hr] at hv
    cases hv
  · rw [hr] at hv
    cases hv
    rfl

theorem evaluates_self (h : ((Setting.mk host rounds).evalNode env n).problem? = none) :
    host.Evaluates env n ((Setting.mk host rounds).evalNode env n) := by
  refine ⟨rounds, rfl, fun hresult => ?_⟩
  rw [Outcome.problem?, hresult] at h
  cases h

theorem evaluates_of_eval_eq_ok {v : Value} {t : State}
    (h : eval host rounds n ⟨env, []⟩ = (.ok v, t)) :
    host.Evaluates env n ⟨.ok v, t.env, t.log⟩ := by
  refine ⟨rounds, ?_, nofun⟩
  rw [Setting.evalNode, Setting.perform, h]

theorem Host.Evaluates.get?_of_not_target (h : host.Evaluates env n o) {name : String}
    (hname : ¬ n.Mentions .target name) : o.env.get? name = env.get? name := by
  obtain ⟨rounds, rfl, hresult⟩ := h
  rw [Setting.evalNode, Setting.perform_eq]
  exact get?_of_ends (ends_iff_result.mpr hresult) hname

section

variable {as bs : List Node} {a b : Outcome Value}

/-- Statements that come to their end do so behind others, too, if those bind none of their
names. What is then bound, and what is printed, comes from the one list or from the other. -/
theorem sequence_follows (hspares : (Node.sequence as).Spares (.sequence bs))
    (ha : host.Evaluates env (.sequence as) a) (hb : host.Evaluates env (.sequence bs) b)
    (aok : a.problem? = none) (bok : b.problem? = none) :
    ∃ o, host.Evaluates env (.sequence (as ++ bs)) o ∧ o.problem? = none ∧
      o.output = a.output ++ b.output ∧
      (∀ name, ¬ (Node.sequence as).Mentions .target name → o.env.get? name = b.env.get? name) ∧
      ∀ name, ¬ (Node.sequence bs).Mentions .target name → o.env.get? name = a.env.get? name := by
  obtain ⟨v, enough, hfirst⟩ := ha.eval_eq_ok aok
  obtain ⟨w, enough', hsecond⟩ := hb.eval_eq_ok bok
  have ha' := hfirst (max enough enough') (by omega)
  have hb' := hsecond (max enough enough') (by omega)
  -- behind the first list, the second finds its names as they were
  have htracks : TracksSelf host (max enough enough') (max enough enough')
      (State.Agrees (fun name => a.env.get? name = env.get? name) a.log) (.sequence bs) :=
    tracks_eval (coupled_agrees _ _) (le_refl _) fun role name hname =>
      ha.get?_of_not_target fun htarget => hspares name htarget role hname
  have hlands := htracks ⟨env, []⟩ ⟨a.env, a.log⟩ ⟨fun _ h => h, rfl⟩
  obtain ⟨t, ht, hagrees⟩ := (lands_of_ok hb').mp hlands
  refine ⟨_, evaluates_of_eval_eq_ok (eval_sequence_append ha' ht), rfl, ?_, ?_, ?_⟩
  · rw [Outcome.output, Outcome.output, Outcome.output, hagrees.log, output_append]
  · intro name hname
    exact hagrees.get? name (ha.get?_of_not_target hname)
  · intro name hname
    have hends : (eval host (max enough enough') (.sequence bs)).Ends ⟨a.env, a.log⟩ := by
      intro u hu
      rw [ht] at hu
      cases hu
    have hkept := get?_of_ends hends hname
    rwa [ht] at hkept

/-- Two lists of statements that bind no names of each other, each of which comes to its end by
itself, come to their end in either order. Both orders leave the same bindings, and each prints what
the one list prints and then what the other does. -/
theorem sequence_commutes (has : (Node.sequence as).Spares (.sequence bs))
    (hbs : (Node.sequence bs).Spares (.sequence as))
    (ha : host.Evaluates env (.sequence as) a) (hb : host.Evaluates env (.sequence bs) b)
    (aok : a.problem? = none) (bok : b.problem? = none) :
    ∃ ab ba, host.Evaluates env (.sequence (as ++ bs)) ab ∧
      host.Evaluates env (.sequence (bs ++ as)) ba ∧
      ab.problem? = none ∧ ba.problem? = none ∧
      (∀ name, ab.env.get? name = ba.env.get? name) ∧
      ab.output = a.output ++ b.output ∧ ba.output = b.output ++ a.output := by
  obtain ⟨ab, hab, abok, about, habb, haba⟩ := sequence_follows has ha hb aok bok
  obtain ⟨ba, hba, baok, baout, hbaa, hbab⟩ := sequence_follows hbs hb ha bok aok
  refine ⟨ab, ba, hab, hba, abok, baok, fun name => ?_, about, baout⟩
  by_cases hname : (Node.sequence bs).Mentions .target name
  · have hnot : ¬ (Node.sequence as).Mentions .target name := hbs name hname .target
    rw [habb name hnot, hbab name hnot]
  · rw [haba name hname, hbaa name hname]

/-- A loop and a conditional, both of which print. -/
theorem sequence_commutes_loop :
    let env := Registry.standard.environment
    ∃ p q, Source.read "i = 0 while i < 2 \x7b Print(i) i = i + 1 \x7d" = .ok p ∧
      Source.read "s = 2 if s > 1 \x7b Print(-s) \x7d" = .ok q ∧
      (Node.sequence p.toNode.kids).Spares (.sequence q.toNode.kids) ∧
      (Node.sequence q.toNode.kids).Spares (.sequence p.toNode.kids) ∧
      ∃ ab ba, Host.standard.Evaluates env (.sequence (p.toNode.kids ++ q.toNode.kids)) ab ∧
        Host.standard.Evaluates env (.sequence (q.toNode.kids ++ p.toNode.kids)) ba ∧
        (∀ name, ab.env.get? name = ba.env.get? name) ∧
        ab.output = "0\n1\n-2\n" ∧ ba.output = "-2\n0\n1\n" := by
  intro env
  have hreads :
      ((Source.read "i = 0 while i < 2 \x7b Print(i) i = i + 1 \x7d").toOption.any fun p =>
      (Source.read "s = 2 if s > 1 \x7b Print(-s) \x7d").toOption.any fun q =>
        let as := Node.sequence p.toNode.kids
        let bs := Node.sequence q.toNode.kids
        let a := (Setting.mk .standard 2).evalNode env as
        let b := (Setting.mk .standard 2).evalNode env bs
        spares as.mentions bs.mentions && spares bs.mentions as.mentions &&
          a.problem?.isNone && b.problem?.isNone && a.output == "0\n1\n" && b.output == "-2\n") =
      true := by
    decide +kernel
  obtain ⟨p, hp, hread⟩ := Source.exists_of_any hreads
  obtain ⟨q, hq, h⟩ := Source.exists_of_any hread
  simp only [Bool.and_eq_true, Option.isNone_iff_eq_none, beq_iff_eq] at h
  obtain ⟨⟨⟨⟨⟨has, hbs⟩, aok⟩, bok⟩, aout⟩, bout⟩ := h
  have hsparesp := spares_of_mentions has
  have hsparesq := spares_of_mentions hbs
  obtain ⟨ab, ba, hab, hba, -, -, henv, about, baout⟩ := sequence_commutes hsparesp hsparesq
    (evaluates_self aok) (evaluates_self bok) aok bok
  rw [aout, bout] at about baout
  exact ⟨p, q, hp, hq, hsparesp, hsparesq, ab, ba, hab, hba, henv, about, baout⟩

end

end Scriptlet
