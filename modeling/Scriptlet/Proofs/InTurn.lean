import Scriptlet.Proofs.Following
import Scriptlet.Proofs.Joining
import Scriptlet.Workspace
/-!
# Running sources in turn

Sources run one after the other in one environment, up to the first that comes to no end. Main
statement: running them in turn is running all of them joined, and what a report says of the line of
a failure is moved down by the lines of the sources before (`run_joined`).
-/

namespace Scriptlet

open Source (Program Shaped read exists_of_isOk)

namespace Setting

/-- Run sources in turn, until one comes to no end, and count those that came to their end. -/
def runInTurn (setting : Setting) (env : Environment) : List String → Outcome Unit × Nat
  | [] => (⟨.ok (), env, []⟩, 0)
  | source :: sources =>
    let o := setting.runSource env source
    match o.result with
    | .error _ => (o, 0)
    | .ok () =>
      let rest := setting.runInTurn o.env sources
      (⟨rest.1.result, rest.1.env, rest.1.log ++ o.log⟩, rest.2 + 1)

end Setting

/-- The lines that sources take up above what follows them. -/
def linesOf : List String → Nat
  | [] => 0
  | source :: sources => (Shift.below source).lines + linesOf sources

def Problem.moved (lines : Nat) : Problem → Problem
  | .failure f => .failure (f.moved lines)
  | p => p

def Outcome.moved {α : Type} (lines : Nat) (o : Outcome α) : Outcome α :=
  ⟨o.result.mapError (Problem.moved lines), o.env, o.log⟩

theorem location_moved_zero (l : Location) : l.moved 0 = l := by
  show Location.mk (l.line + 0) l.column = l
  rw [Int.add_zero]

theorem location_moved_add (m n : Nat) (l : Location) :
    (l.moved m).moved n = l.moved (n + m) := by
  show Location.mk (l.line + m + n) l.column = Location.mk (l.line + (n + m : Nat)) l.column
  congr 1
  omega

theorem problem_moved_zero (p : Problem) : p.moved 0 = p := by
  cases p with
  | failure f =>
    obtain ⟨fault, location⟩ := f
    cases location with
    | none => rfl
    | some l =>
      show Problem.failure ⟨fault, some (l.moved 0)⟩ = _
      rw [location_moved_zero]
  | _ => rfl

theorem problem_moved_add (m n : Nat) (p : Problem) : (p.moved m).moved n = p.moved (n + m) := by
  cases p with
  | failure f =>
    obtain ⟨fault, location⟩ := f
    cases location with
    | none => rfl
    | some l =>
      show Problem.failure ⟨fault, some ((l.moved m).moved n)⟩ = _
      rw [location_moved_add]
      rfl
  | _ => rfl

theorem outcome_moved_zero {α : Type} (o : Outcome α) : o.moved 0 = o := by
  obtain ⟨result, env, log⟩ := o
  cases result with
  | ok a => rfl
  | error p =>
    show Outcome.mk (.error (p.moved 0)) env log = _
    rw [problem_moved_zero]

theorem ofStop_moved (lines : Nat) (stop : Stop) :
    Problem.ofStop (stop.moved lines) = (Problem.ofStop stop).moved lines := by
  cases stop <;> rfl

theorem mapError_ofStop {α : Type} (lines : Nat) (x : Except Stop α) :
    (x.mapError (Stop.moved lines)).mapError Problem.ofStop =
      (x.mapError Problem.ofStop).mapError (Problem.moved lines) := by
  cases x with
  | ok a => rfl
  | error stop => exact congrArg Except.error (ofStop_moved lines stop)

theorem mapError_moved {α : Type} (m n : Nat) (x : Except Problem α) :
    (x.mapError (Problem.moved m)).mapError (Problem.moved n) =
      x.mapError (Problem.moved (n + m)) := by
  cases x with
  | ok a => rfl
  | error p => exact congrArg Except.error (problem_moved_add m n p)

/-! ## Programs -/

section

variable {host : Host} {rounds : Nat}

/-- A failure that has its location, if it is one that takes any. -/
def Failure.Settled (f : Failure) : Prop := f.fault.isNative = true → f.location.isSome = true

theorem settled_leaving (f : Failure) (s : Source.Span) : (f.leaving (.span s)).Settled := by
  intro h
  unfold Failure.leaving at h ⊢
  split
  next => rfl
  next hnot =>
    rw [if_neg hnot] at h
    cases hl : f.location with
    | none => simp [hl, h] at hnot
    | some l => rfl

/-- A failure leaves a node that stands in a source with its location. -/
theorem settled_of_span {n : Node} {sp : Source.Span} (h : n.place = .span sp) (s : State) :
    (eval host rounds n).Lands s (fun _ _ => True) fun f _ => f.Settled := by
  obtain ⟨r, hr⟩ : ∃ r, eval host rounds n = Run.located (.span sp) r := by
    rw [← h]
    cases n <;> exact ⟨_, eval.eq_def ..⟩
  rw [hr, Run.lands_located]
  exact Run.lands_of_forall (fun _ _ => trivial) fun f _ => settled_leaving f sp

theorem settled_of_shaped {n : Node} (h : Shaped n) (s : State) :
    (eval host rounds n).Lands s (fun _ _ => True) fun f _ => f.Settled := by
  obtain ⟨sp, hplace⟩ : ∃ sp, n.place = .span sp := by
    cases h <;> exact ⟨_, rfl⟩
  exact settled_of_span hplace s

theorem place_expr (e : Source.Expr) : ∃ sp, e.toNode.place = .span sp := by
  cases e <;> exact ⟨_, rfl⟩

theorem leaving_of_settled {f : Failure} (h : f.Settled) (place : Place) : f.leaving place = f := by
  unfold Failure.leaving
  split
  next hnone =>
    rw [Bool.and_eq_true, Option.isNone_iff_eq_none] at hnone
    have hsome := h hnone.1
    rw [hnone.2] at hsome
    cases hsome
  next => rfl

theorem located_of_settled {α : Type} {r : Run α} {s : State} (place : Place)
    (h : r.Lands s (fun _ _ => True) fun f _ => f.Settled) : Run.located place r s = r s := by
  unfold Run.located
  rcases hr : r s with ⟨_ | _, t⟩
  next why =>
    cases why with
    | failure f =>
      show (Except.error (Stop.failure (f.leaving place)), t) = _
      rw [leaving_of_settled ((Run.lands_of_failure hr).mp h)]
    | outOfRounds => rfl
  next => rfl

theorem settled_evalAll {ns : List Node} (h : ∀ n ∈ ns, Shaped n) (s : State) :
    (evalAll host rounds ns).Lands s (fun _ _ => True) fun f _ => f.Settled := by
  refine lands_evalAll ns trivial fun before n after t hns _ _ => ?_
  refine settled_of_shaped (h n ?_) t
  rw [hns]
  exact List.mem_append_right before List.mem_cons_self

end

/-- Running a source that is read is running its statements. -/
theorem runSource_eq {setting : Setting} {env : Environment} {source : String} {program : Program}
    (hread : read source = .ok program) :
    setting.runSource env source =
      Setting.perform env (evalAll setting.host setting.rounds program.toNode.kids) := by
  obtain ⟨kids, place, hnode⟩ : ∃ kids place, program.toNode = .tree .program kids place :=
    ⟨_, _, rfl⟩
  have hshaped := Source.shaped_of_read hread
  rw [hnode] at hshaped
  have heval : eval setting.host setting.rounds (.tree .program kids place) ⟨env, []⟩ =
      (do evalAll setting.host setting.rounds kids; pure .null : Run Value) ⟨env, []⟩ := by
    rw [eval]
    refine located_of_settled place ?_
    rw [Run.lands_bind]
    exact (settled_evalAll hshaped _).weaken fun _ _ _ _ => trivial
  rw [Setting.runSource_of_read hread, Setting.perform_eq]
  rw [hnode, heval, Run.bind_apply, Node.kids]
  rcases evalAll setting.host setting.rounds kids ⟨env, []⟩ with ⟨_ | _, t⟩
  next => rfl
  next => rfl

/-! ## Joined sources -/

theorem shaped_moved {n : Node} (d : Shift) (h : Shaped n) : Shaped (n.moved d) := by
  induction h with
  | constant kind text p s =>
    rw [moved_tree, List.map_singleton, moved_token]
    exact .constant kind text _ _
  | name text p s =>
    rw [moved_tree, List.map_singleton, moved_token]
    exact .name text _ _
  | call text p s _ ih =>
    rw [moved_tree, List.map_cons, moved_token]
    exact .call text _ _ (List.forall_mem_map.mpr ih)
  | negate s _ ih =>
    rw [moved_tree, List.map_singleton]
    exact .negate _ ih
  | binary level p s mem _ _ ihl ihr =>
    rw [moved_tree, List.map_cons, List.map_cons, List.map_singleton, moved_token]
    exact .binary level _ _ mem ihl ihr
  | assignment text p s _ ih =>
    rw [moved_tree, List.map_cons, List.map_singleton, moved_token]
    exact .assignment text _ _ ih
  | conditional w p s _ _ single _ ihc ihb iho =>
    rw [moved_tree, List.map_cons, List.map_cons, List.map_cons, moved_token]
    refine .conditional w _ _ ihc ihb ?_ (List.forall_mem_map.mpr iho)
    rwa [List.length_map]
  | elseBlock s _ ih =>
    rw [moved_tree, List.map_singleton]
    exact .elseBlock _ ih
  | block s _ ih =>
    rw [moved_tree]
    exact .block _ (List.forall_mem_map.mpr ih)

theorem shaped_stacked {sources : List String} {programs : List Program}
    (h : List.Forall₂ (fun s p => read s = .ok p) sources programs) :
    ∀ n ∈ stacked sources programs, Shaped n := by
  induction h with
  | nil => exact List.forall_mem_nil _
  | cons hread _ ih =>
    rw [stacked]
    refine List.forall_mem_append.mpr ⟨Source.shaped_of_read hread, ?_⟩
    exact List.forall_mem_map.mpr fun n hn => shaped_moved _ (ih n hn)

/-- The statements of sources below one another run as the sources do in turn. -/
theorem perform_stacked {sources : List String} {programs : List Program}
    (h : List.Forall₂ (fun s p => read s = .ok p) sources programs) (setting : Setting)
    (env : Environment) :
    Setting.perform env (evalAll setting.host setting.rounds (stacked sources programs)) =
      (setting.runInTurn env sources).1.moved
        (linesOf (sources.take (setting.runInTurn env sources).2)) := by
  induction h generalizing env with
  | nil =>
    rw [stacked, evalAll]
    rfl
  | @cons source program sources programs hread hrest ih =>
    rw [stacked, evalAll_append, Setting.perform_eq]
    simp only [Setting.runInTurn, runSource_eq hread, Setting.perform_eq]
    rcases hr : evalAll setting.host setting.rounds program.toNode.kids ⟨env, []⟩ with
      ⟨stop | _, t⟩
    · rw [Run.bind_error hr]
      exact (outcome_moved_zero _).symm
    · -- the rest runs over the events of this source, and its failures lie below it
      have hmoves : ∀ n ∈ stacked sources programs,
          Moves setting.host setting.rounds (.below source) n :=
        fun n hn => follows_of_shaped (shaped_stacked hrest n hn)
      have hfollows := follows_evalAll hmoves ⟨t.env, []⟩ t.log
      have hstate : State.over t.log ⟨t.env, []⟩ = t := rfl
      rw [hstate] at hfollows
      rw [Run.bind_ok hr, hfollows]
      have hrest := ih t.env
      rw [Setting.perform_eq] at hrest
      obtain ⟨hresult, henv, hlog⟩ := Outcome.mk.inj hrest
      show Outcome.mk _ _ _ = Outcome.mk _ _ _
      rw [Outcome.mk.injEq]
      refine ⟨?_, henv, congrArg (· ++ t.log) hlog⟩
      rw [mapError_ofStop, hresult, mapError_moved]
      rfl

/-- Sources that are each read, none of which could take the next one for its else branch, are read
when they are joined, as the statements of all of them; and to run them joined is to run them in
turn, with the line of a failure counted from the start of the first source. -/
theorem run_joined {sources : List String} {programs : List Program}
    (h : List.Forall₂ (fun s p => read s = .ok p) sources programs) (hsep : Separate sources)
    (setting : Setting) (env : Environment) :
    (∃ program, read (String.intercalate "\n" sources) = .ok program ∧
        program.toNode.kids = stacked sources programs) ∧
      setting.runSource env (String.intercalate "\n" sources) =
        (setting.runInTurn env sources).1.moved
          (linesOf (sources.take (setting.runInTurn env sources).2)) := by
  obtain ⟨program, hread, hkids, -⟩ := read_joined h hsep
  refine ⟨⟨program, hread, hkids⟩, ?_⟩
  rw [runSource_eq hread, hkids]
  exact perform_stacked h setting env

/-- A block, an empty source and a call: the third source fails, and the report moves down by the
lines of the two before. -/
theorem run_joined_division :
    (∃ programs, List.Forall₂ (fun s p => read s = .ok p)
        ["if 1 < 2 \x7b\nx = 0 \x7d # done", "", "Print(1 / x)"] programs) ∧
      Separate ["if 1 < 2 \x7b\nx = 0 \x7d # done", "", "Print(1 / x)"] ∧
      ((Setting.mk .standard 1).runInTurn Registry.standard.environment
        ["if 1 < 2 \x7b\nx = 0 \x7d # done", "", "Print(1 / x)"]).1.problem?.map Problem.message =
          some "Integer division by zero (line 1, col 7)" ∧
      ((Setting.mk .standard 1).runSource Registry.standard.environment (String.intercalate "\n"
        ["if 1 < 2 \x7b\nx = 0 \x7d # done", "", "Print(1 / x)"])).problem?.map Problem.message =
          some "Integer division by zero (line 4, col 7)" := by
  obtain ⟨p, hp⟩ : ∃ p, read "if 1 < 2 \x7b\nx = 0 \x7d # done" = .ok p :=
    exists_of_isOk (by decide +kernel)
  obtain ⟨q, hq⟩ : ∃ q, read "" = .ok q := exists_of_isOk (by decide +kernel)
  obtain ⟨r, hr⟩ : ∃ r, read "Print(1 / x)" = .ok r := exists_of_isOk (by decide +kernel)
  have hsep : Separate ["if 1 < 2 \x7b\nx = 0 \x7d # done", "", "Print(1 / x)"] := by
    unfold Separate
    decide +kernel
  have hjoined := run_joined (.cons hp (.cons hq (.cons hr .nil))) hsep (Setting.mk .standard 1)
    Registry.standard.environment
  refine ⟨⟨_, .cons hp (.cons hq (.cons hr .nil))⟩, hsep, by decide +kernel, ?_⟩
  rw [hjoined.2]
  decide +kernel

end Scriptlet
