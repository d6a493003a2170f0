import Scriptlet.Proofs.InTurn
/-!
# What places are for

The place of a node decides where a failure is said to be, and nothing else. To forget the location
of a failure is to forget it in each part of a run, and a node that stands nowhere runs, locations
apart, as it does where it stands (`unlocated_eval`). Main statement: sources with the same program,
places apart, have the same outcome, locations apart (`unlocated_runSource`).
-/

namespace Scriptlet

open Source (Keyword Level Program Shaped read unplaced_tree)

def Failure.unlocated (f : Failure) : Failure := ⟨f.fault, none⟩

def Stop.unlocated : Stop → Stop
  | .failure f => .failure f.unlocated
  | .outOfRounds => .outOfRounds

def Problem.unlocated : Problem → Problem
  | .failure f => .failure f.unlocated
  | p => p

def Outcome.unlocated {α : Type} (o : Outcome α) : Outcome α :=
  ⟨o.result.mapError Problem.unlocated, o.env, o.log⟩

namespace Run

variable {α β : Type}

def unlocated (r : Run α) : Run α := fun s => ((r s).1.mapError Stop.unlocated, (r s).2)

theorem unlocated_bind (r : Run α) (k : α → Run β) :
    (r >>= k).unlocated = r.unlocated >>= fun a => (k a).unlocated := by
  funext s
  simp only [unlocated, bind_apply]
  rcases r s with ⟨_ | _, t⟩
  next => rfl
  next => rfl

theorem unlocated_located (place : Place) (r : Run α) :
    (located place r).unlocated = r.unlocated := by
  funext s
  unfold unlocated located
  rcases r s with ⟨stop | _, t⟩
  · cases stop with
    | failure f =>
      show (Except.error (Stop.failure ⟨(f.leaving place).fault, none⟩), t) = _
      rw [fault_leaving]
      rfl
    | outOfRounds => rfl
  · rfl

theorem unlocated_repeatWhile (check : Run Bool) (once : Run Unit) (rounds : Nat) :
    (repeatWhile check once rounds).unlocated =
      repeatWhile check.unlocated once.unlocated rounds := by
  induction rounds with
  | zero => rfl
  | succ rounds ih =>
    rw [repeatWhile, repeatWhile, unlocated_bind]
    refine congrArg _ (funext fun _ => ?_)
    rw [unlocated_bind]
    refine congrArg _ (funext fun met => ?_)
    cases met with
    | true => exact ih
    | false => rfl

end Run

open Run

variable {host : Host} {rounds : Nat}

/-! ## Nodes -/

variable (host rounds) in
/-- A node runs as it does without places, locations apart. -/
def Placeless (n : Node) : Prop :=
  (eval host rounds n.unplaced).unlocated = (eval host rounds n).unlocated

theorem unlocated_evalAll {ns : List Node} (h : ∀ n ∈ ns, Placeless host rounds n) :
    (evalAll host rounds (ns.map Node.unplaced)).unlocated =
      (evalAll host rounds ns).unlocated := by
  induction ns with
  | nil => rfl
  | cons n ns ih =>
    obtain ⟨hn, hns⟩ := List.forall_mem_cons.mp h
    rw [List.map_cons, evalAll, evalAll, unlocated_bind, unlocated_bind, hn, ih hns]

theorem unlocated_evalArgs {ns : List Node} (h : ∀ n ∈ ns, Placeless host rounds n) :
    (evalArgs host rounds (ns.map Node.unplaced)).unlocated =
      (evalArgs host rounds ns).unlocated := by
  induction ns with
  | nil => rfl
  | cons n ns ih =>
    obtain ⟨hn, hns⟩ := List.forall_mem_cons.mp h
    rw [List.map_cons, evalArgs, evalArgs, unlocated_bind, unlocated_bind, hn]
    refine congrArg _ (funext fun v => ?_)
    rw [unlocated_bind, unlocated_bind, ih hns]

theorem unlocated_evalElse {ns : List Node} (h : ∀ n ∈ ns, Placeless host rounds n) :
    (evalElse host rounds (ns.map Node.unplaced)).unlocated =
      (evalElse host rounds ns).unlocated := by
  cases ns with
  | nil => rfl
  | cons n ns =>
    rw [List.map_cons, evalElse, evalElse]
    exact h n List.mem_cons_self

theorem placeless_conditional {w : Keyword} {word : String} {c b : Node} {otherwise : List Node}
    {p place : Place} (single : otherwise.length ≤ 1) (hc : Placeless host rounds c)
    (hb : Placeless host rounds b) (ho : ∀ n ∈ otherwise, Placeless host rounds n) :
    Placeless host rounds
      (.tree w.label (.token w.tokenKind word p :: c :: b :: otherwise) place) := by
  have hcheck : (check host rounds w word c.unplaced).unlocated =
      (check host rounds w word c).unlocated := by
    rw [check, check, unlocated_bind, unlocated_bind, hc]
  have honce : (once host rounds b.unplaced).unlocated = (once host rounds b).unlocated := by
    rw [once, once, unlocated_bind, unlocated_bind, hb]
  have hproceed : (proceed host rounds w word c.unplaced b.unplaced).unlocated =
      (proceed host rounds w word c b).unlocated := by
    cases w with
    | ifWord | unlessWord => exact honce
    | whileWord | untilWord =>
      unfold proceed
      rw [unlocated_repeatWhile, unlocated_repeatWhile, hcheck, honce]
  have hsingle : (otherwise.map Node.unplaced).length ≤ 1 := by
    rwa [List.length_map]
  unfold Placeless
  rw [unplaced_tree, List.map_cons, List.map_cons, List.map_cons, Node.unplaced,
    eval_conditional host rounds w word c b p place single,
    eval_conditional host rounds w word c.unplaced b.unplaced _ _ hsingle, unlocated_located,
    unlocated_located, unlocated_bind, unlocated_bind, hcheck]
  refine congrArg _ (funext fun met => ?_)
  cases met with
  | true =>
    rw [if_pos rfl, if_pos rfl, unlocated_bind, unlocated_bind, hproceed]
  | false => exact unlocated_evalElse ho

/-- A node that stands nowhere runs as it does where it stands, locations apart. -/
theorem unlocated_eval {n : Node} (h : Shaped n) : Placeless host rounds n := by
  induction h with
  | constant kind text p s =>
    rw [Placeless, unplaced_tree, List.map_singleton, Node.unplaced, eval, eval, unlocated_located,
      unlocated_located]
  | name text p s =>
    rw [Placeless, unplaced_tree, List.map_singleton, Node.unplaced, eval, eval, expectName,
      expectName, unlocated_located, unlocated_located]
  | call text p s _ ih =>
    rw [Placeless, unplaced_tree, List.map_cons, Node.unplaced, eval, eval, expectName, expectName,
      unlocated_located, unlocated_located, pure_bind, pure_bind, unlocated_bind, unlocated_bind,
      unlocated_evalArgs ih]
  | negate s _ ih =>
    rw [Placeless, unplaced_tree, List.map_singleton, eval, eval, unlocated_located,
      unlocated_located, unlocated_bind, unlocated_bind, ih]
  | binary level p s _ _ _ ihl ihr =>
    rw [Placeless, unplaced_tree, List.map_cons, List.map_cons, List.map_singleton, Node.unplaced,
      eval_binary, eval_binary, unlocated_located, unlocated_located, unlocated_bind,
      unlocated_bind, ihl]
    refine congrArg _ (funext fun a => ?_)
    rw [unlocated_bind, unlocated_bind, ihr]
  | assignment text p s _ ih =>
    rw [Placeless, unplaced_tree, List.map_cons, List.map_singleton, Node.unplaced, eval, eval,
      expectName, expectName, unlocated_located, unlocated_located, pure_bind, pure_bind,
      unlocated_bind, unlocated_bind, ih]
  | conditional w p s _ _ single _ ihc ihb iho => exact placeless_conditional single ihc ihb iho
  | elseBlock s _ ih =>
    rw [Placeless, unplaced_tree, List.map_singleton, eval, eval, unlocated_located,
      unlocated_located, ih]
  | block s _ ih =>
    rw [Placeless, unplaced_tree, eval, eval, unlocated_located, unlocated_located, unlocated_bind,
      unlocated_bind, unlocated_evalAll ih]

/-! ## Sources -/

theorem unlocated_perform {env : Environment} {r r' : Run Unit} (h : r.unlocated = r'.unlocated) :
    (Setting.perform env r).unlocated = (Setting.perform env r').unlocated := by
  have hforget : ∀ x : Except Stop Unit, (x.mapError Problem.ofStop).mapError Problem.unlocated =
      (x.mapError Stop.unlocated).mapError Problem.ofStop := by
    intro x
    rcases x with ⟨f | _⟩ | _ <;> rfl
  have hstart := congrFun h ⟨env, []⟩
  obtain ⟨hresult, hstate⟩ := Prod.mk.inj hstart
  rw [Setting.perform_eq, Setting.perform_eq, Outcome.unlocated, Outcome.unlocated]
  dsimp only
  rw [hforget, hforget, hresult, hstate]

/-- Sources whose programs differ in places at most have outcomes that differ in locations at
most. -/
theorem unlocated_runSource {source text : String} {p q : Program} (hp : read source = .ok p)
    (hq : read text = .ok q) (h : q.toNode.unplaced = p.toNode.unplaced) (setting : Setting)
    (env : Environment) :
    (setting.runSource env text).unlocated = (setting.runSource env source).unlocated := by
  obtain ⟨ns, place, hpnode⟩ : ∃ ns place, p.toNode = .tree .program ns place := ⟨_, _, rfl⟩
  obtain ⟨ms, place', hqnode⟩ : ∃ ms place, q.toNode = .tree .program ms place := ⟨_, _, rfl⟩
  have hns := Source.shaped_of_read hp
  have hms := Source.shaped_of_read hq
  rw [runSource_eq hp, runSource_eq hq]
  rw [hpnode] at hns h ⊢
  rw [hqnode] at hms h ⊢
  rw [unplaced_tree, unplaced_tree] at h
  have hsame : ms.map Node.unplaced = ns.map Node.unplaced := (Node.tree.inj h).2.1
  have hkids : ∀ ks : List Node, (∀ n ∈ ks, Shaped n) →
      (evalAll setting.host setting.rounds (ks.map Node.unplaced)).unlocated =
        (evalAll setting.host setting.rounds ks).unlocated :=
    fun ks hks => unlocated_evalAll fun n hn => unlocated_eval (hks n hn)
  have hms' := hkids ms hms
  rw [hsame] at hms'
  exact unlocated_perform (hms'.symm.trans (hkids ns hns))

end Scriptlet
