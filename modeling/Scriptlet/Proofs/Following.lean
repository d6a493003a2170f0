import Scriptlet.Proofs.Entering
import Scriptlet.Proofs.Moving
import Scriptlet.Proofs.Shape
/-!
# Following a run

A run that does what another one does, with more events behind it in the log and with the locations
of its failures moved down. Everything that a run can do follows itself, and whatever is put
together from runs follows what is put together from the runs that they follow. Main statement: the
evaluation of a moved node follows that of the node (`follows_of_shaped`).
-/

namespace Scriptlet

open Source (Keyword Level Shaped)

def Failure.moved (lines : Nat) (f : Failure) : Failure :=
  ⟨f.fault, f.location.map (Location.moved lines)⟩

def Stop.moved (lines : Nat) : Stop → Stop
  | .failure f => .failure (f.moved lines)
  | .outOfRounds => .outOfRounds

/-- A state with events from before. -/
def State.over (base : List Event) (s : State) : State := ⟨s.env, s.log ++ base⟩

/-- The failure leaves a moved place as it leaves the place. -/
theorem leaving_moved (d : Shift) (place : Place) (f : Failure) :
    (f.moved d.lines).leaving (place.moved d) = (f.leaving place).moved d.lines := by
  obtain ⟨fault, location⟩ := f
  unfold Failure.leaving
  cases location with
  | none =>
    simp only [Failure.moved, Option.map_none, Option.isNone_none, Bool.and_true]
    split
    · rw [location_moved]
    · rfl
  | some l => simp [Failure.moved]

namespace Run

/-- A run does what another does, over more events and with its failures moved. -/
def Follows {α : Type} (lines : Nat) (r r' : Run α) : Prop :=
  ∀ (s : State) (base : List Event),
    r' (s.over base) = ((r s).1.mapError (Stop.moved lines), (r s).2.over base)

variable {α β : Type} {lines : Nat}

theorem follows_pure (a : α) : Follows lines (pure a : Run α) (pure a) := fun _ _ => rfl

theorem follows_fail (f : Fault) : Follows lines (fail f : Run α) (fail f) := fun _ _ => rfl

theorem follows_ofExcept (x : Except Fault α) : Follows lines (ofExcept x) (ofExcept x) := by
  cases x with
  | ok a => exact follows_pure a
  | error f => exact follows_fail f

theorem follows_record (e : Event) : Follows lines (record e) (record e) := fun _ _ => rfl

theorem follows_environment : Follows lines environment environment := fun _ _ => rfl

theorem follows_define (name : String) (v : Value) :
    Follows lines (Run.bind name v) (Run.bind name v) := fun _ _ => rfl

theorem follows_print (text : String) : Follows lines (print text) (print text) := by
  unfold print
  split
  · exact follows_pure ()
  · exact follows_record _

theorem follows_stop : Follows lines (stop .outOfRounds : Run α) (stop .outOfRounds) :=
  fun _ _ => rfl

theorem Follows.bind {r r' : Run α} {k k' : α → Run β} (h : Follows lines r r')
    (hk : ∀ a, Follows lines (k a) (k' a)) : Follows lines (r >>= k) (r' >>= k') := by
  intro s base
  rw [bind_apply, bind_apply, h s base]
  cases hr : r s with
  | mk outcome t =>
    cases outcome with
    | ok a => exact hk a t base
    | error stop => rfl

theorem Follows.located {d : Shift} {r r' : Run α} (h : Follows d.lines r r') (place : Place) :
    Follows d.lines (located place r) (located (place.moved d) r') := by
  intro s base
  unfold Run.located
  rw [h s base]
  cases hr : r s with
  | mk outcome t =>
    cases outcome with
    | ok a => rfl
    | error stop =>
      cases stop with
      | failure f =>
        show (Except.error (Stop.failure ((f.moved d.lines).leaving (place.moved d))), _) = _
        rw [leaving_moved]
        rfl
      | outOfRounds => rfl

theorem Follows.repeatWhile {check check' : Run Bool} {once once' : Run Unit}
    (hc : Follows lines check check') (ho : Follows lines once once') (rounds : Nat) :
    Follows lines (repeatWhile check once rounds) (repeatWhile check' once' rounds) := by
  induction rounds with
  | zero => exact follows_stop
  | succ rounds ih =>
    rw [Run.repeatWhile, Run.repeatWhile]
    refine ho.bind fun _ => hc.bind fun met => ?_
    cases met with
    | true => exact ih
    | false => exact follows_pure ()

end Run

open Run

variable {host : Host} {rounds : Nat} {d : Shift}

/-! ## Calls and lists -/

theorem follows_lookUp {lines : Nat} (name : String) :
    Follows lines (lookUp name) (lookUp name) := by
  refine follows_environment.bind fun env => ?_
  split
  · exact follows_pure _
  · exact follows_fail _

theorem follows_invoke {lines : Nat} (c : Callable) (args : List Value) :
    Follows lines (invoke host c args) (invoke host c args) := by
  have hout : Follows lines (carryOut host c args) (carryOut host c args) := by
    refine (follows_record _).bind fun _ => (follows_print _).bind fun _ => ?_
    cases (host.reply c.ident args).answer with
    | value v => exact follows_pure v
    | nothing => exact follows_pure Value.null
    | foreign | incomputable | rejected | fails => exact follows_fail _
  rw [invoke_eq]
  split
  · split
    · exact follows_fail _
    · exact hout
  · exact hout

theorem follows_callNamed {lines : Nat} (name : String) (args : List Value) :
    Follows lines (callNamed host name args) (callNamed host name args) := by
  have hcallee : Follows lines (resolveCallee name) (resolveCallee name) := by
    refine follows_environment.bind fun env => ?_
    split
    · exact follows_pure _
    · exact follows_fail _
    · exact follows_fail _
  exact hcallee.bind fun c => (follows_record _).bind fun _ => follows_invoke c args

def Moves (host : Host) (rounds : Nat) (d : Shift) (n : Node) : Prop :=
  Follows d.lines (eval host rounds n) (eval host rounds (n.moved d))

theorem follows_evalAll {ns : List Node} (h : ∀ n ∈ ns, Moves host rounds d n) :
    Follows d.lines (evalAll host rounds ns) (evalAll host rounds (ns.map (Node.moved d))) := by
  induction ns with
  | nil =>
    rw [List.map_nil, evalAll]
    exact follows_pure ()
  | cons n ns ih =>
    rw [List.map_cons, evalAll, evalAll]
    exact (h n List.mem_cons_self).bind fun _ => ih fun m hm => h m (List.mem_cons_of_mem n hm)

theorem follows_evalArgs {ns : List Node} (h : ∀ n ∈ ns, Moves host rounds d n) :
    Follows d.lines (evalArgs host rounds ns) (evalArgs host rounds (ns.map (Node.moved d))) := by
  induction ns with
  | nil =>
    rw [List.map_nil, evalArgs]
    exact follows_pure []
  | cons n ns ih =>
    rw [List.map_cons, evalArgs, evalArgs]
    exact (h n List.mem_cons_self).bind fun v =>
      (ih fun m hm => h m (List.mem_cons_of_mem n hm)).bind fun vs => follows_pure (v :: vs)

theorem follows_evalElse {ns : List Node} (h : ∀ n ∈ ns, Moves host rounds d n) :
    Follows d.lines (evalElse host rounds ns) (evalElse host rounds (ns.map (Node.moved d))) := by
  cases ns with
  | nil =>
    rw [List.map_nil, evalElse]
    exact follows_pure Value.null
  | cons n ns =>
    rw [List.map_cons, evalElse, evalElse]
    exact h n List.mem_cons_self

/-! ## Nodes -/

theorem moves_conditional {w : Keyword} {word : String} {c b : Node} {otherwise : List Node}
    {p place : Place} (single : otherwise.length ≤ 1) (hc : Moves host rounds d c)
    (hb : Moves host rounds d b) (ho : ∀ n ∈ otherwise, Moves host rounds d n) :
    Moves host rounds d
      (.tree w.label (.token w.tokenKind word p :: c :: b :: otherwise) place) := by
  have hcheck : Follows d.lines (check host rounds w word c)
      (check host rounds w word (c.moved d)) :=
    hc.bind fun v => follows_ofExcept _
  have honce : Follows d.lines (once host rounds b) (once host rounds (b.moved d)) :=
    hb.bind fun _ => follows_pure ()
  have hproceed : Follows d.lines (proceed host rounds w word c b)
      (proceed host rounds w word (c.moved d) (b.moved d)) := by
    cases w with
    | ifWord => exact honce
    | unlessWord => exact honce
    | whileWord => exact hcheck.repeatWhile honce rounds
    | untilWord => exact hcheck.repeatWhile honce rounds
  have hsingle : (otherwise.map (Node.moved d)).length ≤ 1 := by
    rwa [List.length_map]
  unfold Moves
  rw [moved_tree, List.map_cons, List.map_cons, List.map_cons, moved_token,
    eval_conditional host rounds w word c b p place single,
    eval_conditional host rounds w word (c.moved d) (b.moved d) _ _ hsingle]
  refine Follows.located (hcheck.bind fun met => ?_) place
  cases met with
  | true => exact hproceed.bind fun _ => follows_pure Value.null
  | false => exact follows_evalElse ho

/-- The evaluation of a moved node follows that of the node. -/
theorem follows_of_shaped {n : Node} (h : Shaped n) : Moves host rounds d n := by
  induction h with
  | constant kind text p s =>
    rw [Moves, moved_tree, List.map_singleton, moved_token, eval, eval]
    exact (follows_ofExcept _).located _
  | name text p s =>
    rw [Moves, moved_tree, List.map_singleton, moved_token, eval, eval, expectName, expectName]
    exact Follows.located (follows_lookUp text) _
  | call text p s _ ih =>
    rw [Moves, moved_tree, List.map_cons, moved_token, eval, eval, expectName, expectName]
    exact Follows.located
      ((follows_evalArgs ih).bind fun vs => follows_callNamed text vs) _
  | negate s _ ih =>
    rw [Moves, moved_tree, List.map_singleton, eval, eval]
    exact Follows.located (ih.bind fun v => follows_ofExcept _) _
  | binary level p s _ _ _ ihl ihr =>
    rw [Moves, moved_tree, List.map_cons, List.map_cons, List.map_singleton, moved_token,
      eval_binary, eval_binary]
    exact Follows.located
      (ihl.bind fun a => ihr.bind fun b => follows_ofExcept _) _
  | assignment text p s _ ih =>
    rw [Moves, moved_tree, List.map_cons, List.map_singleton, moved_token, eval, eval, expectName,
      expectName]
    exact Follows.located
      (ih.bind fun v => (follows_define text v).bind fun _ => follows_pure Value.null) _
  | conditional w p s _ _ single _ ihc ihb iho => exact moves_conditional single ihc ihb iho
  | elseBlock s _ ih =>
    rw [Moves, moved_tree, List.map_singleton, eval, eval]
    exact Follows.located ih _
  | block s _ ih =>
    rw [Moves, moved_tree, eval, eval]
    exact Follows.located ((follows_evalAll ih).bind fun _ => follows_pure Value.null) _

end Scriptlet
