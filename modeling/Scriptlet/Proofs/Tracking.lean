import Scriptlet.Proofs.Continuing
import Scriptlet.Proofs.Mentions
import Scriptlet.Workspace
/-!
# Runs side by side

A run tracks another one over a relation of states if, from related states, it ends as the other
does, with the same value or the same failure, in related states. Nothing is said where the other is
out of rounds. What a node needs of the relation is small (`Coupled`): related states have the same
values for the names that matter, and stay related when both take the same step. Main statements: a
node tracks itself over every such relation, with at least as many rounds (`tracks_eval`); so rounds
enough are enough (`eval_of_le`), and what a node comes to is one outcome (`Host.Evaluates.unique`).
-/

namespace Scriptlet

open Source (Keyword Level)

namespace Run

variable {α β : Type} {R : State → State → Prop} {s s' : State}

/-- From related states, where the first run ends the second ends likewise, in related states. -/
def Tracks (R : State → State → Prop) (r r' : Run α) : Prop :=
  ∀ s s', R s s' → r.Lands s (fun a t => ∃ t', r' s' = (.ok a, t') ∧ R t t')
    fun f t => ∃ t', r' s' = (.error (.failure f), t') ∧ R t t'

theorem tracks_pure (a : α) : Tracks R (pure a : Run α) (pure a) := fun _ s' h => ⟨s', rfl, h⟩

theorem tracks_fail (f : Fault) : Tracks R (fail f : Run α) (fail f) := fun _ s' h => ⟨s', rfl, h⟩

theorem tracks_ofExcept (x : Except Fault α) : Tracks R (ofExcept x) (ofExcept x) := by
  cases x with
  | ok a => exact tracks_pure a
  | error f => exact tracks_fail f

theorem Tracks.bind {r r' : Run α} {k k' : α → Run β} (h : Tracks R r r')
    (hk : ∀ a, Tracks R (k a) (k' a)) : Tracks R (r >>= k) (r' >>= k') := by
  intro s s' hs
  rw [lands_bind]
  refine (h s s' hs).mono ?_ ?_
  · rintro a t - ⟨t', hr, ht⟩
    rw [bind_ok hr]
    exact hk a t t' ht
  · rintro f t - ⟨t', hr, ht⟩
    exact ⟨t', bind_error hr k', ht⟩

theorem Tracks.located {r r' : Run α} (h : Tracks R r r') (place : Place) :
    Tracks R (located place r) (located place r') := by
  intro s s' hs
  rw [lands_located]
  refine (h s s' hs).mono ?_ ?_
  · rintro a t - ⟨t', hr, ht⟩
    exact ⟨t', by rw [Run.located, hr], ht⟩
  · rintro f t - ⟨t', hr, ht⟩
    exact ⟨t', by rw [Run.located, hr], ht⟩

/-- A loop tracks a loop that may take fewer rounds. -/
theorem Tracks.repeatWhile {check check' : Run Bool} {once once' : Run Unit}
    (hc : Tracks R check check') (ho : Tracks R once once') {rounds rounds' : Nat}
    (hle : rounds ≤ rounds') :
    Tracks R (repeatWhile check once rounds) (repeatWhile check' once' rounds') := by
  induction rounds generalizing rounds' with
  | zero => exact fun _ _ _ => trivial
  | succ rounds ih =>
    obtain ⟨left, rfl⟩ : ∃ left, rounds' = left + 1 := ⟨rounds' - 1, by omega⟩
    rw [Run.repeatWhile, Run.repeatWhile]
    refine ho.bind fun _ => hc.bind fun met => ?_
    cases met with
    | false => exact tracks_pure ()
    | true => exact ih (by omega)

/-- Where the first of two runs ends, the second has the same result, in a related state. -/
theorem Tracks.apply {r r' : Run α} (h : Tracks R r r') (hs : R s s') (hends : r.Ends s) :
    (r' s').1 = (r s).1 ∧ R (r s).2 (r' s').2 := by
  have hlands := h s s' hs
  rcases hr : r s with ⟨stop | a, t⟩
  · cases stop with
    | failure f =>
      obtain ⟨t', hr', ht⟩ := (lands_of_failure hr).mp hlands
      rw [hr']
      exact ⟨rfl, ht⟩
    | outOfRounds => exact absurd hr (hends t)
  · obtain ⟨t', hr', ht⟩ := (lands_of_ok hr).mp hlands
    rw [hr']
    exact ⟨rfl, ht⟩

end Run

open Run

/-- A relation of states that agree on some names, and that no step both take can break. -/
structure Coupled (N : String → Prop) (R : State → State → Prop) : Prop where
  get? {s s' : State} {name : String} (h : R s s') (hname : N name) :
    s'.env.get? name = s.env.get? name
  record {s s' : State} (e : Event) (h : R s s') :
    R { s with log := e :: s.log } { s' with log := e :: s'.log }
  assign {s s' : State} (name : String) (v : Value) (h : R s s') :
    R (s.assign name v) (s'.assign name v)

variable {host : Host} {rounds rounds' : Nat} {N : String → Prop} {R : State → State → Prop}

/-! ## Steps -/

/-- What depends on the environment by the value of one name alone. -/
theorem tracks_read {α : Type} (k : Coupled N R) {name : String} (hname : N name)
    {f : Environment → Run α}
    (hf : ∀ env env', env'.get? name = env.get? name → Tracks R (f env) (f env')) :
    Tracks R (environment >>= f) (environment >>= f) :=
  fun s s' hs => hf s.env s'.env (k.get? hs hname) s s' hs

theorem tracks_lookUp (k : Coupled N R) {name : String} (hname : N name) :
    Tracks R (lookUp name) (lookUp name) := by
  refine tracks_read k hname fun env env' h => ?_
  rw [h]
  cases env.get? name with
  | none => exact tracks_fail _
  | some v => exact tracks_pure v

theorem tracks_resolveCallee (k : Coupled N R) {name : String} (hname : N name) :
    Tracks R (resolveCallee name) (resolveCallee name) := by
  refine tracks_read k hname fun env env' h => ?_
  rw [h]
  cases env.get? name with
  | none => exact tracks_fail _
  | some v =>
    cases v with
    | callable c => exact tracks_pure c
    | _ => exact tracks_fail _

theorem tracks_record (k : Coupled N R) (e : Event) : Tracks R (record e) (record e) :=
  fun _ _ hs => ⟨_, rfl, k.record e hs⟩

theorem tracks_print (k : Coupled N R) (text : String) : Tracks R (print text) (print text) := by
  unfold print
  split
  · exact tracks_pure ()
  · exact tracks_record k _

theorem tracks_define (k : Coupled N R) (name : String) (v : Value) :
    Tracks R (Run.bind name v) (Run.bind name v) :=
  fun _ _ hs => ⟨_, rfl, k.assign name v hs⟩

theorem tracks_invoke (k : Coupled N R) (c : Callable) (args : List Value) :
    Tracks R (invoke host c args) (invoke host c args) := by
  have hout : Tracks R (carryOut host c args) (carryOut host c args) := by
    refine (tracks_record k _).bind fun _ => (tracks_print k _).bind fun _ => ?_
    cases (host.reply c.ident args).answer with
    | value v => exact tracks_pure v
    | nothing => exact tracks_pure Value.null
    | foreign | incomputable | rejected | fails => exact tracks_fail _
  rw [invoke_eq]
  split
  · split
    · exact tracks_fail _
    · exact hout
  · exact hout

theorem tracks_callNamed (k : Coupled N R) {name : String} (hname : N name) (args : List Value) :
    Tracks R (callNamed host name args) (callNamed host name args) :=
  (tracks_resolveCallee k hname).bind fun c =>
    (tracks_record k _).bind fun _ => tracks_invoke k c args

/-! ## Nodes -/

variable (host rounds rounds' R) in
def TracksSelf (n : Node) : Prop := Tracks R (eval host rounds n) (eval host rounds' n)

theorem tracks_evalAll {ns : List Node} (h : ∀ n ∈ ns, TracksSelf host rounds rounds' R n) :
    Tracks R (evalAll host rounds ns) (evalAll host rounds' ns) := by
  induction ns with
  | nil =>
    rw [evalAll, evalAll]
    exact tracks_pure ()
  | cons n ns ih =>
    obtain ⟨hn, hns⟩ := List.forall_mem_cons.mp h
    rw [evalAll, evalAll]
    exact Tracks.bind hn fun _ => ih hns

theorem tracks_evalArgs {ns : List Node} (h : ∀ n ∈ ns, TracksSelf host rounds rounds' R n) :
    Tracks R (evalArgs host rounds ns) (evalArgs host rounds' ns) := by
  induction ns with
  | nil =>
    rw [evalArgs, evalArgs]
    exact tracks_pure []
  | cons n ns ih =>
    obtain ⟨hn, hns⟩ := List.forall_mem_cons.mp h
    rw [evalArgs, evalArgs]
    exact Tracks.bind hn fun v => (ih hns).bind fun vs => tracks_pure (v :: vs)

theorem tracks_evalElse {ns : List Node} (h : ∀ n ∈ ns, TracksSelf host rounds rounds' R n) :
    Tracks R (evalElse host rounds ns) (evalElse host rounds' ns) := by
  cases ns with
  | nil =>
    rw [evalElse, evalElse]
    exact tracks_pure Value.null
  | cons n ns =>
    rw [evalElse, evalElse]
    exact h n List.mem_cons_self

theorem tracks_conditional (hle : rounds ≤ rounds') {w : Keyword} {word : String} {c b : Node}
    {otherwise : List Node} {p place : Place} (single : otherwise.length ≤ 1)
    (h : ∀ m ∈ c :: b :: otherwise, TracksSelf host rounds rounds' R m) :
    TracksSelf host rounds rounds' R
      (.tree w.label (.token w.tokenKind word p :: c :: b :: otherwise) place) := by
  simp only [List.forall_mem_cons] at h
  obtain ⟨hc, hb, ho⟩ := h
  have hcheck : Tracks R (check host rounds w word c) (check host rounds' w word c) :=
    Tracks.bind hc fun v => tracks_ofExcept _
  have honce : Tracks R (once host rounds b) (once host rounds' b) :=
    Tracks.bind hb fun _ => tracks_pure ()
  have hproceed : Tracks R (proceed host rounds w word c b) (proceed host rounds' w word c b) := by
    cases w with
    | ifWord | unlessWord => exact honce
    | whileWord | untilWord => exact hcheck.repeatWhile honce hle
  unfold TracksSelf
  rw [eval_conditional host rounds w word c b p place single,
    eval_conditional host rounds' w word c b p place single]
  refine Tracks.located (hcheck.bind fun met => ?_) place
  cases met with
  | true => exact hproceed.bind fun _ => tracks_pure Value.null
  | false => exact tracks_evalElse ho

/-- A node tracks itself over a relation of states that agree on the names it mentions. -/
theorem tracks_eval (k : Coupled N R) (hle : rounds ≤ rounds') {n : Node}
    (hn : ∀ role name, n.Mentions role name → N name) : TracksSelf host rounds rounds' R n := by
  induction n using operands_induction with
  | h n ih =>
    have hchild : ∀ m ∈ operands n, TracksSelf host rounds rounds' R m :=
      fun m hm => ih m hm fun role name h => hn role name (.inside hm h)
    cases form n with
    | misfit _ h =>
      rw [TracksSelf, h, h]
      exact (tracks_fail _).located _
    | name text hform h =>
      have hname : N text := by
        rcases hform with rfl | ⟨place, rfl⟩
        · exact hn _ _ .token
        · exact hn _ _ .reference
      rw [TracksSelf, h, h]
      exact (tracks_lookUp k hname).located _
    | literal _ h =>
      rw [TracksSelf, h, h]
      exact (tracks_ofExcept _).located _
    | statements hl kids place =>
      rw [operands_statements hl] at hchild
      rw [TracksSelf, eval_statements host rounds hl, eval_statements host rounds' hl]
      exact Tracks.located ((tracks_evalAll hchild).bind fun _ => tracks_pure Value.null) _
    | assignment name p source place =>
      have hsource : TracksSelf host rounds rounds' R source := hchild _ (List.mem_singleton_self _)
      rw [TracksSelf, eval, eval, expectName, pure_bind, pure_bind]
      exact Tracks.located (Tracks.bind hsource fun v =>
        (tracks_define k name v).bind fun _ => tracks_pure Value.null) _
    | call name p args place =>
      rw [TracksSelf, eval, eval, expectName, pure_bind, pure_bind]
      exact Tracks.located ((tracks_evalArgs hchild).bind fun vs =>
        tracks_callNamed k (hn _ _ .callee) vs) _
    | negate operand place =>
      have hoperand : TracksSelf host rounds rounds' R operand :=
        hchild _ (List.mem_singleton_self _)
      rw [TracksSelf, eval, eval]
      exact Tracks.located (Tracks.bind hoperand fun v => tracks_ofExcept _) _
    | binary level lhs rhs op p place =>
      simp only [operands_binary, List.forall_mem_cons] at hchild
      obtain ⟨hl, hr, -⟩ := hchild
      rw [TracksSelf, eval_binary, eval_binary]
      exact Tracks.located (Tracks.bind hl fun a => Tracks.bind hr fun b => tracks_ofExcept _) _
    | conditional w word c b p place single =>
      rw [operands_conditional] at hchild
      exact tracks_conditional hle single hchild
    | elseBlock body place =>
      rw [TracksSelf, eval, eval]
      exact Tracks.located (hchild _ (List.mem_singleton_self _)) _

/-! ## Rounds enough -/

/-- States that are the same are coupled, whatever the names. -/
theorem coupled_eq (N : String → Prop) : Coupled N Eq where
  get? h _ := by rw [h]
  record _ h := by rw [h]
  assign _ _ h := by rw [h]

/-- A run that ends ends the same way with more rounds. -/
theorem eval_of_le (hle : rounds ≤ rounds') {n : Node} {s : State}
    (hends : (eval host rounds n).Ends s) : eval host rounds' n s = eval host rounds n s := by
  have htracks : TracksSelf host rounds rounds' Eq n :=
    tracks_eval (coupled_eq fun _ => True) hle fun _ _ _ => trivial
  obtain ⟨hresult, hstate⟩ := Tracks.apply htracks rfl hends
  exact Prod.ext hresult hstate.symm

/-- The evaluation of a node in an environment comes to an outcome, given rounds enough. -/
def Host.Evaluates (host : Host) (env : Environment) (n : Node) (o : Outcome Value) : Prop :=
  ∃ rounds, (Setting.mk host rounds).evalNode env n = o ∧ o.result ≠ .error .outOfRounds

section

variable {env : Environment} {n : Node} {o : Outcome Value}

theorem ends_iff_result :
    (eval host rounds n).Ends ⟨env, []⟩ ↔
      ((Setting.mk host rounds).evalNode env n).result ≠ .error .outOfRounds := by
  rw [Setting.evalNode, Setting.perform_eq, Ends]
  rcases eval host rounds n ⟨env, []⟩ with ⟨stop | v, t⟩
  · cases stop <;> simp [Except.mapError, Problem.ofStop]
  · simp [Except.mapError]

/-- What a node comes to, it comes to with any more rounds. -/
theorem Host.Evaluates.of_le (h : host.Evaluates env n o) :
    ∃ enough, ∀ rounds, enough ≤ rounds → (Setting.mk host rounds).evalNode env n = o := by
  obtain ⟨enough, rfl, hends⟩ := h
  refine ⟨enough, fun rounds hle => ?_⟩
  rw [Setting.evalNode, Setting.evalNode, Setting.perform_eq, Setting.perform_eq,
    eval_of_le hle (ends_iff_result.mpr hends)]

/-- A node comes to one outcome. -/
theorem Host.Evaluates.unique {o' : Outcome Value} (h : host.Evaluates env n o)
    (h' : host.Evaluates env n o') : o = o' := by
  obtain ⟨enough, ho⟩ := h.of_le
  obtain ⟨enough', ho'⟩ := h'.of_le
  rw [← ho (max enough enough') (by omega), ← ho' (max enough enough') (by omega)]

end

end Scriptlet
