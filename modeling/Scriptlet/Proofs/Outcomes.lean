import Scriptlet.Eval
/-!
# Outcomes

What is known of a run from a state: one statement about the value and the state it ends in, and one
about the failure and the state it stops in. Nothing is said of a run that is out of rounds. A rule
for each part of a run: the statement about a bind is the statement about its first part, with that
about the second in the place of its end (`lands_bind`). Main statements: a condition that every
node of a list keeps is kept by the list (`lands_evalAll`, `lands_evalArgs`), and one that every
round of a loop keeps is kept by the loop (`lands_repeatWhile`).
-/

namespace Scriptlet

namespace Run

/-- A run from a state ends as `post` says or fails as `fails` says, unless it is out of rounds. -/
def Lands {α : Type} (r : Run α) (s : State) (post : α → State → Prop)
    (fails : Failure → State → Prop) : Prop :=
  match r s with
  | (.ok a, t) => post a t
  | (.error (.failure f), t) => fails f t
  | (.error .outOfRounds, _) => True

variable {α β : Type} {s : State} {post : α → State → Prop} {fails : Failure → State → Prop}

theorem lands_of_ok {r : Run α} {a : α} {t : State} (h : r s = (.ok a, t)) :
    r.Lands s post fails ↔ post a t := by
  rw [Lands, h]

theorem lands_of_failure {r : Run α} {f : Failure} {t : State}
    (h : r s = (.error (.failure f), t)) : r.Lands s post fails ↔ fails f t := by
  rw [Lands, h]

theorem lands_of_forall {r : Run α} (hp : ∀ a t, post a t) (hf : ∀ f t, fails f t) :
    r.Lands s post fails := by
  unfold Lands
  split
  · exact hp _ _
  · exact hf _ _
  · trivial

def failure? (r : Run α) (s : State) : Option Failure :=
  match r s with
  | (.error (.failure f), _) => some f
  | _ => none

theorem eq_of_failure? {r : Run α} {f : Failure} (h : r.failure? s = some f) :
    ∃ t, r s = (.error (.failure f), t) := by
  unfold failure? at h
  split at h
  next g t hr => exact ⟨t, by rw [hr, Option.some.inj h]⟩
  next => cases h

def faultClass? (r : Run α) (s : State) : Option FaultClass :=
  (r.failure? s).map (·.fault.faultClass)

theorem failure_of_faultClass? {r : Run α} {c : FaultClass} (h : r.faultClass? s = some c) :
    ∃ f t, r s = (.error (.failure f), t) ∧ f.fault.faultClass = c := by
  obtain ⟨f, hf, hc⟩ := Option.map_eq_some_iff.mp h
  obtain ⟨t, ht⟩ := eq_of_failure? hf
  exact ⟨f, t, ht, hc⟩

theorem Lands.mono {r : Run α} {post' : α → State → Prop} {fails' : Failure → State → Prop}
    (h : r.Lands s post fails) (hp : ∀ a t, r s = (.ok a, t) → post a t → post' a t)
    (hf : ∀ f t, r s = (.error (.failure f), t) → fails f t → fails' f t) :
    r.Lands s post' fails' := by
  unfold Lands at h ⊢
  rcases hr : r s with ⟨_ | _, t⟩
  next why =>
    cases why with
    | failure f =>
      rw [hr] at h
      exact hf f t hr h
    | outOfRounds => trivial
  next a =>
    rw [hr] at h
    exact hp a t hr h

theorem Lands.weaken {r : Run α} {post' : α → State → Prop} (h : r.Lands s post fails)
    (hp : ∀ a t, r s = (.ok a, t) → post a t → post' a t) : r.Lands s post' fails :=
  h.mono hp fun _ _ _ hf => hf

@[simp] theorem lands_pure (a : α) : (pure a : Run α).Lands s post fails ↔ post a s := Iff.rfl

@[simp] theorem lands_bind (r : Run α) (k : α → Run β) {post : β → State → Prop} :
    (r >>= k).Lands s post fails ↔ r.Lands s (fun a t => (k a).Lands t post fails) fails := by
  unfold Lands
  rw [bind_apply]
  rcases r s with ⟨_ | _, t⟩
  next why => cases why <;> exact Iff.rfl
  next => exact Iff.rfl

@[simp] theorem lands_fail (f : Fault) :
    (fail f : Run α).Lands s post fails ↔ fails ⟨f, none⟩ s := Iff.rfl

theorem lands_ofExcept (x : Except Fault α) :
    (ofExcept x).Lands s post fails ↔
      (∀ a, x = .ok a → post a s) ∧ ∀ f, x = .error f → fails ⟨f, none⟩ s := by
  cases x with
  | ok a => simp [ofExcept]
  | error f => simp [ofExcept]

@[simp] theorem lands_record (e : Event) {post : Unit → State → Prop} :
    (record e).Lands s post fails ↔ post () { s with log := e :: s.log } := Iff.rfl

@[simp] theorem lands_environment {post : Environment → State → Prop} :
    environment.Lands s post fails ↔ post s.env s := Iff.rfl

@[simp] theorem lands_define (name : String) (v : Value) {post : Unit → State → Prop} :
    (Run.bind name v).Lands s post fails ↔
      post () { env := s.env.define name v, log := .bind name v :: s.log } := Iff.rfl

@[simp] theorem lands_located (place : Place) (r : Run α) :
    (located place r).Lands s post fails ↔
      r.Lands s post fun f t => fails (f.leaving place) t := by
  unfold Lands located
  rcases r s with ⟨_ | _, t⟩
  next why => cases why <;> exact Iff.rfl
  next => exact Iff.rfl

/-- A condition on the environment outlives what is only printed. -/
theorem lands_print {post : Unit → State → Prop} (text : String)
    (h : ∀ log, post () { s with log := log }) : (print text).Lands s post fails := by
  unfold print
  split
  · exact h s.log
  · exact h (.print text :: s.log)

/-- Rounds of a loop that are behind it: each ran its body, and its check then said yes. -/
inductive Rounds (check : Run Bool) (once : Run Unit) : State → State → Prop where
  | none {s : State} : Rounds check once s s
  | more {s t u v : State} (hb : once s = (.ok (), t)) (hc : check t = (.ok true, u))
      (rest : Rounds check once u v) : Rounds check once s v

theorem lands_repeatWhile {I : State → Prop} {check : Run Bool} {once : Run Unit} (rounds : Nat)
    (hs : I s)
    (h : ∀ t, Rounds check once s t → I t →
      once.Lands t (fun _ u => check.Lands u (fun _ v => I v) fails) fails) :
    (repeatWhile check once rounds).Lands s (fun _ t => I t) fails := by
  induction rounds generalizing s with
  | zero => trivial
  | succ rounds ih =>
    simp only [repeatWhile, lands_bind]
    refine (h s .none hs).weaken fun _ t hb hcheck => hcheck.weaken fun met u hc hu => ?_
    cases met with
    | false => exact hu
    | true =>
      simp only [if_true]
      exact ih hu fun v hv => h v (.more hb hc hv)

end Run

variable {host : Host} {rounds : Nat} {s : State} {I : State → Prop} {V : Value → Prop}
  {fails : Failure → State → Prop}

theorem lands_evalAll (ns : List Node) (hs : I s)
    (h : ∀ before n after t, ns = before ++ n :: after →
      evalAll host rounds before s = (.ok (), t) → I t →
        (eval host rounds n).Lands t (fun _ u => I u) fails) :
    (evalAll host rounds ns).Lands s (fun _ u => I u) fails := by
  induction ns generalizing s with
  | nil =>
    rw [evalAll]
    exact hs
  | cons n ns ih =>
    rw [evalAll, Run.lands_bind]
    refine (h [] n ns s rfl (by rw [evalAll, Run.pure_apply]) hs).weaken fun v t hv ht => ?_
    refine ih ht fun before m after u hns hu => ?_
    refine h (n :: before) m after u (by rw [hns, List.cons_append]) ?_
    rw [evalAll, Run.bind_ok hv, hu]

theorem lands_evalArgs (ns : List Node) (hs : I s)
    (h : ∀ before n after t vs, ns = before ++ n :: after →
      evalArgs host rounds before s = (.ok vs, t) → I t →
        (eval host rounds n).Lands t (fun v u => I u ∧ V v) fails) :
    (evalArgs host rounds ns).Lands s (fun vs u => I u ∧ ∀ v ∈ vs, V v) fails := by
  induction ns generalizing s with
  | nil =>
    rw [evalArgs]
    exact ⟨hs, List.forall_mem_nil _⟩
  | cons n ns ih =>
    rw [evalArgs, Run.lands_bind]
    refine (h [] n ns s [] rfl (by rw [evalArgs, Run.pure_apply]) hs).weaken fun v t hv ht => ?_
    rw [Run.lands_bind]
    refine (ih ht.1 fun before m after u vs hns hu => ?_).weaken fun vs u _ hu =>
      ⟨hu.1, List.forall_mem_cons.mpr ⟨ht.2, hu.2⟩⟩
    refine h (n :: before) m after u (v :: vs) (by rw [hns, List.cons_append]) ?_
    rw [evalArgs, Run.bind_ok hv, Run.bind_ok hu, Run.pure_apply]

end Scriptlet
