import Scriptlet.Proofs.Keeping
import Scriptlet.Proofs.Spans
/-!
# What is left of a run

A node that is entered is entered in the middle of the run of the node around it: to run the outer
node is to run the inner one and then to go on with its value (`eval_of_enters`). The log only ever
grows, so whatever is left to do keeps it. Main statements, for a node that a run reaches: its
events are still in the log at the end (`log_of_reaches`), and if it fails, the run fails with it,
in the very state and with the same fault (`fails_of_reaches`).
-/

namespace Scriptlet

open Source (Keyword Level)

namespace Run

variable {α β : Type} {s t : State}

/-- A run from a state comes to its end within its rounds, be it a value or a failure. -/
def Ends (r : Run α) (s : State) : Prop := ∀ t, r s ≠ (.error .outOfRounds, t)

def Grows (r : Run α) : Prop :=
  ∀ s, r.Lands s (fun _ t => s.log <:+ t.log) fun _ t => s.log <:+ t.log

/-! ## Ends -/

theorem Ends.of_bind {r : Run α} {k : α → Run β} (h : (r >>= k).Ends s) : r.Ends s :=
  fun t hr => h t (bind_error hr k)

theorem Ends.of_located {r : Run α} {place : Place} (h : (located place r).Ends s) : r.Ends s := by
  intro t hr
  refine h t ?_
  rw [located, hr]

theorem ends_congr {r r' : Run α} (h : r s = r' t) (hends : r.Ends s) : r'.Ends t :=
  fun u hu => hends u (h.trans hu)

theorem ends_of_ok {r : Run α} {a : α} (h : r s = (.ok a, t)) : r.Ends s := by
  intro u hu
  rw [h] at hu
  cases hu

theorem ends_of_failure {r : Run α} {f : Failure} (h : r s = (.error (.failure f), t)) :
    r.Ends s := by
  intro u hu
  rw [h] at hu
  cases hu

theorem located_congr {r r' : Run α} (place : Place) (h : r s = r' t) :
    located place r s = located place r' t := by
  rw [located, located, h]

theorem bind_congr {r r' : Run α} (k : α → Run β) (h : r s = r' t) :
    (r >>= k) s = (r' >>= k) t := by
  rw [bind_apply, bind_apply, h]

/-! ## Growth -/

theorem grows_pure (a : α) : (pure a : Run α).Grows := fun _ => List.suffix_refl _

theorem grows_ofExcept (x : Except Fault α) : (ofExcept x).Grows := by
  intro s
  rw [lands_ofExcept]
  exact ⟨fun _ _ => List.suffix_refl _, fun _ _ => List.suffix_refl _⟩

theorem grows_define (name : String) (v : Value) : (Run.bind name v).Grows :=
  fun _ => List.suffix_cons ..

theorem Grows.bind {r : Run α} {k : α → Run β} (hr : r.Grows) (hk : ∀ a, (k a).Grows) :
    (r >>= k).Grows := by
  intro s
  rw [lands_bind]
  refine (hr s).weaken fun a t _ ht => ?_
  exact (hk a t).mono (fun _ _ _ hu => ht.trans hu) fun _ _ _ hu => ht.trans hu

theorem grows_repeatWhile {check : Run Bool} {once : Run Unit} (hcheck : check.Grows)
    (honce : once.Grows) (rounds : Nat) : (repeatWhile check once rounds).Grows := by
  induction rounds with
  | zero => exact fun _ => trivial
  | succ rounds ih =>
    rw [repeatWhile]
    refine honce.bind fun _ => hcheck.bind fun met => ?_
    cases met with
    | false => exact grows_pure ()
    | true => exact ih

/-- What holds of the state whether a run comes to a value or fails holds at its end. -/
theorem state_of_lands {r : Run α} {I : State → Prop} (hends : r.Ends s)
    (h : r.Lands s (fun _ t => I t) fun _ t => I t) : I (r s).2 := by
  rcases hr : r s with ⟨stop | a, t⟩
  · cases stop with
    | failure f => exact (lands_of_failure hr).mp h
    | outOfRounds => exact absurd hr (hends t)
  · exact (lands_of_ok hr).mp h

theorem Grows.suffix {r : Run α} (h : r.Grows) (hends : r.Ends s) : s.log <:+ (r s).2.log :=
  state_of_lands hends (h s)

theorem log_located {r : Run α} (place : Place) : (located place r s).2.log = (r s).2.log := by
  rw [located]
  rcases r s with ⟨stop | a, t⟩
  · cases stop with
    | failure f => rfl
    | outOfRounds => rfl
  · rfl

/-! ## Loops -/

/-- What a loop does after the check of a round, with some rounds left. -/
def goOn (check : Run Bool) (once : Run Unit) (left : Nat) (met : Bool) : Run Unit :=
  if met then repeatWhile check once left else pure ()

theorem grows_goOn {check : Run Bool} {once : Run Unit} (hcheck : check.Grows) (honce : once.Grows)
    (left : Nat) (met : Bool) : (goOn check once left met).Grows := by
  cases met with
  | false => exact grows_pure ()
  | true => exact grows_repeatWhile hcheck honce left

/-- A loop with rounds behind it goes on from where they have led. -/
theorem repeatWhile_of_rounds {check : Run Bool} {once : Run Unit} (behind : Rounds check once s t)
    {rounds : Nat} (hends : (repeatWhile check once rounds).Ends s) :
    ∃ left, repeatWhile check once rounds s =
      (once >>= fun _ => check >>= goOn check once left) t := by
  induction behind generalizing rounds with
  | @none s =>
    cases rounds with
    | zero => exact absurd rfl (hends s)
    | succ left => exact ⟨left, rfl⟩
  | @more s u v w hb hc _ ih =>
    cases rounds with
    | zero => exact absurd rfl (hends s)
    | succ rounds =>
      have hround : repeatWhile check once (rounds + 1) s = repeatWhile check once rounds v := by
        rw [repeatWhile, bind_ok hb, bind_ok hc, if_pos rfl]
      obtain ⟨left, hleft⟩ := ih (ends_congr hround hends)
      exact ⟨left, hround.trans hleft⟩

end Run

section

variable {host : Host} {rounds : Nat} {n m : Node} {s t : State}

/-! ## Growth of evaluation -/

/-- Whatever a log holds, later logs hold too. -/
theorem kept_log (host : Host) (log : List Event) :
    Kept host (fun s => log <:+ s.log) fun _ => True :=
  kept_of_events fun _ _ _ hs => hs.trans (List.suffix_cons ..)

theorem keeps_log (host : Host) (rounds : Nat) (log : List Event) (n : Node) :
    Keeps host rounds (fun s => log <:+ s.log) (fun _ => True) n :=
  keeps_of_kept (kept_log host log) (fun hs _ => hs.trans (List.suffix_cons ..)) n

theorem grows_eval (n : Node) : (eval host rounds n).Grows := by
  intro s
  exact (keeps_log host rounds s.log n s (List.suffix_refl _)).weaken fun _ _ _ ht => ht.1

theorem grows_evalAll (ns : List Node) : (evalAll host rounds ns).Grows := by
  induction ns with
  | nil =>
    rw [evalAll]
    exact Run.grows_pure ()
  | cons n ns ih =>
    rw [evalAll]
    exact (grows_eval n).bind fun _ => ih

theorem grows_evalArgs (ns : List Node) : (evalArgs host rounds ns).Grows := by
  induction ns with
  | nil =>
    rw [evalArgs]
    exact Run.grows_pure []
  | cons n ns ih =>
    rw [evalArgs]
    exact (grows_eval n).bind fun _ => ih.bind fun _ => Run.grows_pure _

theorem grows_evalElse (ns : List Node) : (evalElse host rounds ns).Grows := by
  cases ns with
  | nil =>
    rw [evalElse]
    exact Run.grows_pure Value.null
  | cons n ns =>
    rw [evalElse]
    exact grows_eval n

theorem grows_callNamed (name : String) (args : List Value) : (callNamed host name args).Grows := by
  intro s
  exact (callNamed_kept (kept_log host s.log) (List.suffix_refl _) name fun _ _ => trivial).mono
    (fun _ _ _ ht => ht.1) fun _ _ _ ht => ht.2.1

theorem grows_check (w : Keyword) (word : String) (c : Node) :
    (check host rounds w word c).Grows :=
  (grows_eval c).bind fun _ => Run.grows_ofExcept _

theorem grows_once (b : Node) : (once host rounds b).Grows :=
  (grows_eval b).bind fun _ => Run.grows_pure ()

theorem check_bind {α : Type} (w : Keyword) (word : String) (c : Node) (k : Bool → Run α) :
    check host rounds w word c >>= k =
      eval host rounds c >>= fun v => Run.ofExcept (conditionMet word (positive w) v) >>= k :=
  bind_assoc ..

theorem once_bind {α : Type} (b : Node) (k : Unit → Run α) :
    once host rounds b >>= k = eval host rounds b >>= fun _ => k () :=
  bind_assoc ..

theorem grows_proceed (w : Keyword) (word : String) (c b : Node) :
    (proceed host rounds w word c b).Grows := by
  cases w with
  | ifWord | unlessWord => exact grows_once b
  | whileWord | untilWord =>
    exact Run.grows_repeatWhile (grows_check _ word c) (grows_once b) rounds

/-! ## One node -/

theorem proceed_ifBlock {w : Keyword} (hw : w.label = .ifBlock) (word : String) (c b : Node) :
    proceed host rounds w word c b = once host rounds b := by
  cases w with
  | ifWord | unlessWord => rfl
  | whileWord | untilWord => cases hw

theorem proceed_whileBlock {w : Keyword} (hw : w.label = .whileBlock) (word : String) (c b : Node) :
    proceed host rounds w word c b =
      Run.repeatWhile (check host rounds w word c) (once host rounds b) rounds := by
  cases w with
  | ifWord | unlessWord => cases hw
  | whileWord | untilWord => rfl

/-- A conditional whose condition is met goes on with its body. -/
theorem eval_of_met {w : Keyword} {word : String} {c b : Node} {otherwise : List Node}
    {p place : Place} (single : otherwise.length ≤ 1)
    (h : check host rounds w word c s = (.ok true, t)) :
    eval host rounds (.tree w.label (.token w.tokenKind word p :: c :: b :: otherwise) place) s =
      Run.located place (do proceed host rounds w word c b; pure .null) t := by
  rw [eval_conditional host rounds w word c b p place single]
  refine Run.located_congr place ?_
  rw [Run.bind_ok h, if_pos rfl]

/-- A loop whose condition is met, with rounds behind it, goes on with one more round. -/
theorem eval_of_rounds {w : Keyword} {word : String} {c b : Node} {otherwise : List Node}
    {p place : Place} {u : State} (single : otherwise.length ≤ 1) (hw : w.label = .whileBlock)
    (hmet : check host rounds w word c s = (.ok true, t))
    (behind : Run.Rounds (check host rounds w word c) (once host rounds b) t u)
    (hends : (eval host rounds
      (.tree w.label (.token w.tokenKind word p :: c :: b :: otherwise) place)).Ends s) :
    ∃ left, eval host rounds
        (.tree w.label (.token w.tokenKind word p :: c :: b :: otherwise) place) s =
      Run.located place (do
        once host rounds b >>= fun _ => check host rounds w word c >>=
          Run.goOn (check host rounds w word c) (once host rounds b) left
        pure .null) u := by
  have heval : eval host rounds
      (.tree w.label (.token w.tokenKind word p :: c :: b :: otherwise) place) s = _ :=
    eval_of_met single hmet
  rw [proceed_whileBlock hw] at heval
  obtain ⟨left, hleft⟩ := Run.repeatWhile_of_rounds behind
    (Run.ends_congr heval hends).of_located.of_bind
  exact ⟨left, heval.trans (Run.located_congr place (Run.bind_congr _ hleft))⟩

/-- To run a node is to run a child that it enters, from the state it enters it in, and to go on
with the child's value. -/
theorem eval_of_enters (he : Enters host rounds n s m t) (hends : (eval host rounds n).Ends s) :
    ∃ k : Value → Run Value, (∀ v, (k v).Grows) ∧
      eval host rounds n s = Run.located n.place (eval host rounds m >>= k) t := by
  cases he with
  | @statement label before _ after place _ _ hl hb =>
    refine ⟨fun _ => do evalAll host rounds after; pure .null,
      fun _ => (grows_evalAll after).bind fun _ => Run.grows_pure _, ?_⟩
    rw [eval_statements host rounds hl]
    refine Run.located_congr place ?_
    rw [evalAll_append, bind_assoc, Run.bind_ok hb, evalAll, bind_assoc]
  | @source name _ p place =>
    refine ⟨fun v => do Run.bind name v; pure .null,
      fun v => (Run.grows_define name v).bind fun _ => Run.grows_pure _, ?_⟩
    rw [eval, expectName, pure_bind]
    rfl
  | @argument name before _ after p place _ _ vs hvs =>
    refine ⟨fun v => do
        let ws ← evalArgs host rounds after
        callNamed host name (vs ++ v :: ws),
      fun v => (grows_evalArgs after).bind fun _ => grows_callNamed name _, ?_⟩
    rw [eval, expectName, pure_bind]
    refine Run.located_congr place ?_
    rw [evalArgs_append, bind_assoc, Run.bind_ok hvs]
    simp only [evalArgs, bind_assoc, pure_bind]
  | @operand _ place =>
    refine ⟨fun v => Run.ofExcept (negate v), fun v => Run.grows_ofExcept _, ?_⟩
    rw [eval]
    rfl
  | @left level _ rhs op p place =>
    refine ⟨fun a => do
        let b ← eval host rounds rhs
        Run.ofExcept (applyOperator level op a b),
      fun a => (grows_eval rhs).bind fun _ => Run.grows_ofExcept _, ?_⟩
    rw [eval_binary]
    rfl
  | @right level lhs _ op p place _ _ a ha =>
    refine ⟨fun b => Run.ofExcept (applyOperator level op a b), fun b => Run.grows_ofExcept _, ?_⟩
    rw [eval_binary]
    exact Run.located_congr place (Run.bind_ok ha _)
  | @condition w word _ b otherwise p place _ single =>
    refine ⟨fun v => do
        if ← Run.ofExcept (conditionMet word (positive w) v) then do
          proceed host rounds w word m b
          pure .null
        else evalElse host rounds otherwise,
      fun v => (Run.grows_ofExcept _).bind fun met => ?_, ?_⟩
    · cases met with
      | true => exact (grows_proceed w word m b).bind fun _ => Run.grows_pure _
      | false => exact grows_evalElse otherwise
    · rw [eval_conditional host rounds w word m b p place single, check_bind]
      rfl
  | @body w word c _ otherwise p place _ _ single hw hmet =>
    refine ⟨fun _ => pure .null, fun _ => Run.grows_pure _, ?_⟩
    rw [eval_of_met single hmet]
    refine Run.located_congr place ?_
    rw [proceed_ifBlock hw, once, bind_assoc]
    rfl
  | @round w word c _ otherwise p place _ _ _ single hw hmet behind =>
    obtain ⟨left, heval⟩ := eval_of_rounds single hw hmet behind hends
    refine ⟨fun _ => do
        check host rounds w word c >>=
          Run.goOn (check host rounds w word c) (once host rounds m) left
        pure .null,
      fun _ => ((grows_check w word c).bind (Run.grows_goOn (grows_check w word c) (grows_once m)
        left)).bind fun _ => Run.grows_pure _, ?_⟩
    rw [heval, bind_assoc, once_bind]
    rfl
  | @again w word _ b otherwise p place _ _ _ _ single hw hmet behind hb =>
    obtain ⟨left, heval⟩ := eval_of_rounds single hw hmet behind hends
    refine ⟨fun v => do
        Run.ofExcept (conditionMet word (positive w) v) >>=
          Run.goOn (check host rounds w word m) (once host rounds b) left
        pure .null,
      fun v => ((Run.grows_ofExcept _).bind (Run.grows_goOn (grows_check w word m) (grows_once b)
        left)).bind fun _ => Run.grows_pure _, ?_⟩
    rw [heval, bind_assoc]
    refine Run.located_congr place ?_
    rw [Run.bind_ok hb, check_bind, bind_assoc]
  | @otherwise w word c b _ p place _ _ hmet =>
    refine ⟨pure, fun _ => Run.grows_pure _, ?_⟩
    have single : [m].length ≤ 1 := Nat.le_refl 1
    rw [eval_conditional host rounds w word c b p place single]
    refine Run.located_congr place ?_
    rw [Run.bind_ok hmet, if_neg (by decide), evalElse, bind_pure]
  | @branch _ place =>
    refine ⟨pure, fun _ => Run.grows_pure _, ?_⟩
    rw [eval, bind_pure]
    rfl

/-! ## From the inner node to the outer one -/

theorem ends_of_enters (he : Enters host rounds n s m t) (hends : (eval host rounds n).Ends s) :
    (eval host rounds m).Ends t := by
  obtain ⟨k, -, heq⟩ := eval_of_enters he hends
  exact (Run.ends_congr heq hends).of_located.of_bind

/-- The node around a node that fails fails at once, with the failure as it leaves its place. -/
theorem fails_of_enters (he : Enters host rounds n s m t) (hends : (eval host rounds n).Ends s)
    {f : Failure} {u : State} (hm : eval host rounds m t = (.error (.failure f), u)) :
    eval host rounds n s = (.error (.failure (f.leaving n.place)), u) := by
  obtain ⟨k, -, heq⟩ := eval_of_enters he hends
  rw [heq, Run.located, Run.bind_error hm]

theorem log_of_enters (he : Enters host rounds n s m t) (hends : (eval host rounds n).Ends s) :
    (eval host rounds m t).2.log <:+ (eval host rounds n s).2.log := by
  obtain ⟨k, hk, heq⟩ := eval_of_enters he hends
  have hrest := (Run.ends_congr heq hends).of_located
  rw [heq, Run.log_located]
  rcases hm : eval host rounds m t with ⟨stop | v, u⟩
  · have hstop : ((eval host rounds m >>= k) t).2.log = u.log := by
      rw [Run.bind_error hm]
    exact ⟨[], hstop.symm⟩
  · have hv : (eval host rounds m >>= k) t = k v u := Run.bind_ok hm k
    rw [hv]
    exact (hk v).suffix (Run.ends_congr hv hrest)

theorem ends_of_reaches (h : Reaches host rounds n s m t) (hends : (eval host rounds n).Ends s) :
    (eval host rounds m).Ends t := by
  induction h with
  | here => exact hends
  | into he _ ih => exact ih (ends_of_enters he hends)

/-- A run that reaches a node that fails fails with it, in the same state and with the same
fault. -/
theorem fails_of_reaches (h : Reaches host rounds n s m t) (hends : (eval host rounds n).Ends s)
    {f : Failure} {u : State} (hm : eval host rounds m t = (.error (.failure f), u)) :
    ∃ g, g.fault = f.fault ∧ eval host rounds n s = (.error (.failure g), u) := by
  induction h with
  | here => exact ⟨f, rfl, hm⟩
  | @into n k _ _ _ _ he _ ih =>
    obtain ⟨g, hg, hk⟩ := ih (ends_of_enters he hends) hm
    refine ⟨g.leaving n.place, ?_, fails_of_enters he hends hk⟩
    rw [fault_leaving, hg]

/-- The events of a node that a run reaches are in the log at its end. -/
theorem log_of_reaches (h : Reaches host rounds n s m t) (hends : (eval host rounds n).Ends s) :
    (eval host rounds m t).2.log <:+ (eval host rounds n s).2.log := by
  induction h with
  | here => exact List.suffix_refl _
  | into he _ ih => exact (ih (ends_of_enters he hends)).trans (log_of_enters he hends)

/-- What a run reaches is inside the node that it runs. -/
theorem inside_of_reaches (h : Reaches host rounds n s m t) : m.Inside n := by
  induction h with
  | here => exact .self
  | into he _ ih =>
    exact inside_of_mem_kids (mem_kids_of_operands (mem_operands_of_enters host rounds he)) ih

end

end Scriptlet
