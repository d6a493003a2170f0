import Scriptlet.Proofs.InTurn
import Scriptlet.Proofs.Tracking
/-!
# Loops

What a loop does, in terms of what its parts do by themselves: a run of a loop is its condition, its
body, its condition and so on, in the order in which they are written here (`Host.Laps`), up to the
first condition that says no or the first part that breaks the loop off (`Host.Breaks`). Nothing is
said of how many rounds a loop may take: a node comes to a value if it does so with some number of
them, and then it does so with any more (`Host.Yields.of_le`). Main statement: a loop ends exactly
where its laps are followed by a condition that says no, and fails exactly where they are followed
by a break (`loop_ends_iff`).
-/

namespace Scriptlet

open Run
open Source (Keyword Guard Expr Block Otherwise Conditional)

/-- A node, evaluated from a state, comes to a value in a state, given rounds enough. -/
def Host.Yields (host : Host) (n : Node) (s : State) (v : Value) (t : State) : Prop :=
  ∃ rounds, eval host rounds n s = (.ok v, t)

/-- A node, evaluated from a state, fails in a state, given rounds enough. -/
def Host.Fails (host : Host) (n : Node) (s : State) (f : Failure) (t : State) : Prop :=
  ∃ rounds, eval host rounds n s = (.error (.failure f), t)

/-- Laps of a loop: in each, the condition comes to the truth value that keeps the loop going, and
then the body comes to its end. -/
inductive Host.Laps (host : Host) (go : Bool) (condition body : Node) :
    Nat → State → State → Prop where
  | none {s : State} : host.Laps go condition body 0 s s
  | more {count : Nat} {s t u x : State} {v : Value} (hc : host.Yields condition s (.bool go) t)
      (hb : host.Yields body t v u) (rest : host.Laps go condition body count u x) :
      host.Laps go condition body (count + 1) s x

/-- A lap that is not finished: its condition fails, or comes to a value that is no truth
value, or its body fails. Only the second of these is a failure of the loop itself, and stands
where it does. -/
inductive Host.Breaks (host : Host) (go : Bool) (condition body : Node) (place : Place) :
    State → Failure → State → Prop where
  | condition {s t : State} {f : Failure} (hc : host.Fails condition s f t) :
      host.Breaks go condition body place s f t
  | notBoolean {s t : State} {v : Value} (hc : host.Yields condition s v t) (hv : v.kind ≠ .bool) :
      host.Breaks go condition body place s ⟨.notBoolean v.kind, place.location⟩ t
  | body {s t u : State} {f : Failure} (hc : host.Yields condition s (.bool go) t)
      (hb : host.Fails body t f u) : host.Breaks go condition body place s f u

/-- The truth value of a condition that lets a conditional go on with its body. -/
def wanted : Keyword → Bool
  | .ifWord | .whileWord => true
  | .unlessWord | .untilWord => false

def branch? : Otherwise → Option Node
  | .absent => none
  | .block b => some b.toNode
  | .chain c => some c.toNode

section

variable {host : Host} {rounds : Nat} {n c b : Node} {s t u : State} {go : Bool} {v : Value}
  {f : Failure} {place : Place}

/-! ## Rounds enough -/

theorem Host.Yields.of_le (h : host.Yields n s v t) :
    ∃ enough, ∀ rounds, enough ≤ rounds → eval host rounds n s = (.ok v, t) := by
  obtain ⟨enough, h⟩ := h
  exact ⟨enough, fun rounds hle => (eval_of_le hle (ends_of_ok h)).trans h⟩

theorem Host.Fails.of_le (h : host.Fails n s f t) :
    ∃ enough, ∀ rounds, enough ≤ rounds → eval host rounds n s = (.error (.failure f), t) := by
  obtain ⟨enough, h⟩ := h
  exact ⟨enough, fun rounds hle => (eval_of_le hle (ends_of_failure h)).trans h⟩

/-- What is known of the evaluation of a node with some number of rounds. -/
theorem lands_yields (n : Node) (s : State) :
    (eval host rounds n).Lands s (host.Yields n s) (host.Fails n s) := by
  rcases hr : eval host rounds n s with ⟨stop | v, t⟩
  · cases stop with
    | failure f => exact (lands_of_failure hr).mpr ⟨rounds, hr⟩
    | outOfRounds =>
      rw [Lands, hr]
      trivial
  · exact (lands_of_ok hr).mpr ⟨rounds, hr⟩

/-! ## Places -/

theorem Host.Fails.settled {sp : Source.Span} (hn : n.place = .span sp) (h : host.Fails n s f t) :
    f.Settled := by
  obtain ⟨rounds, hr⟩ := h
  exact (lands_of_failure hr).mp (settled_of_span hn s)

theorem place_block (b : Block) : ∃ sp, b.toNode.place = .span sp := by
  cases b
  exact ⟨_, rfl⟩

theorem place_branch {otherwise : Otherwise} (h : branch? otherwise = some n) :
    ∃ sp, n.place = .span sp := by
  cases otherwise with
  | absent => cases h
  | block b =>
    cases h
    exact place_block b
  | chain c =>
    cases h
    cases c
    exact ⟨_, rfl⟩

/-! ## Conditions -/

theorem bool_of_kind (hv : v.kind = .bool) : ∃ b, v = .bool b := by
  cases v with
  | bool b => exact ⟨b, rfl⟩
  | null | int | float | string | callable => cases hv

theorem conditionMet_bool (w : Keyword) (b : Bool) :
    conditionMet w.text (positive w) (.bool b) = .ok (b == wanted w) := by
  cases w <;> cases b <;> rfl

theorem conditionMet_of_kind (w : Keyword) {v : Value} (hv : v.kind ≠ .bool) :
    conditionMet w.text (positive w) v = .error (.notBoolean v.kind) := by
  cases v with
  | bool b => exact absurd rfl hv
  | null | int n | float x | string s | callable c => rfl

theorem check_of_bool {w : Keyword} {b : Bool} (h : eval host rounds c s = (.ok (.bool b), t)) :
    check host rounds w w.text c s = (.ok (b == wanted w), t) := by
  rw [check, bind_ok h, conditionMet_bool]
  rfl

theorem check_of_kind {w : Keyword} (h : eval host rounds c s = (.ok v, t)) (hv : v.kind ≠ .bool) :
    check host rounds w w.text c s = (.error (.failure ⟨.notBoolean v.kind, none⟩), t) := by
  rw [check, bind_ok h, conditionMet_of_kind w hv]
  rfl

theorem check_of_failure {w : Keyword} (h : eval host rounds c s = (.error (.failure f), t)) :
    check host rounds w w.text c s = (.error (.failure f), t) :=
  bind_error h _

theorem once_of_yields (h : eval host rounds b s = (.ok v, t)) :
    once host rounds b s = (.ok (), t) :=
  bind_ok h _

theorem once_of_failure (h : eval host rounds b s = (.error (.failure f), t)) :
    once host rounds b s = (.error (.failure f), t) :=
  bind_error h _

theorem leaving_notBoolean (k : Kind) (place : Place) :
    (Failure.mk (.notBoolean k) none).leaving place = ⟨.notBoolean k, place.location⟩ :=
  leaving_of_native rfl none place

/-! ## From the run of a loop to its laps -/

/-- Where a check ends: at a truth value, or at a break. -/
theorem lands_check {w : Keyword} (hc : ∃ sp, c.place = .span sp) (s : State) :
    (check host rounds w w.text c).Lands s
      (fun met t => host.Yields c s (.bool (if met then wanted w else !wanted w)) t)
      fun f t => host.Breaks (wanted w) c b place s (f.leaving place) t := by
  obtain ⟨sp, hplace⟩ := hc
  rw [check, lands_bind]
  refine (lands_yields c s).mono (fun v t _ hv => ?_) fun f t _ hf => ?_
  · rw [lands_ofExcept]
    by_cases hbool : v.kind = .bool
    · obtain ⟨x, rfl⟩ := bool_of_kind hbool
      rw [conditionMet_bool]
      refine ⟨fun met hmet => ?_, fun f hf => by cases hf⟩
      cases hmet
      have hx : x = if x == wanted w then wanted w else !wanted w := by
        cases x <;> cases wanted w <;> rfl
      rwa [← hx]
    · rw [conditionMet_of_kind w hbool]
      refine ⟨fun met hmet => (by cases hmet), fun f hf => ?_⟩
      cases hf
      rw [leaving_notBoolean]
      exact .notBoolean hv hbool
  · rw [leaving_of_settled (hf.settled hplace)]
    exact .condition hf

theorem lands_once (hb : ∃ sp, b.place = .span sp) (hc : host.Yields c s (.bool go) t) :
    (once host rounds b).Lands t (fun _ u => ∃ v, host.Yields b t v u)
      fun f u => host.Breaks go c b place s (f.leaving place) u := by
  obtain ⟨sp, hplace⟩ := hb
  rw [once, lands_bind]
  refine (lands_yields b t).mono (fun v u _ hv => ⟨v, hv⟩) fun f u _ hf => ?_
  rw [leaving_of_settled (hf.settled hplace)]
  exact .body hc hf

/-- The repetitions of a loop whose first condition has been met are laps, up to a condition that
says no or to a break. -/
theorem lands_laps (place : Place) {w : Keyword} (hc : ∃ sp, c.place = .span sp)
    (hb : ∃ sp, b.place = .span sp) (left : Nat) (hmet : host.Yields c s (.bool (wanted w)) t) :
    (repeatWhile (check host rounds w w.text c) (once host rounds b) left).Lands t
      (fun _ x => ∃ count u, host.Laps (wanted w) c b (count + 1) s u ∧
        host.Yields c u (.bool (!wanted w)) x)
      fun f x => ∃ count u, host.Laps (wanted w) c b count s u ∧
        host.Breaks (wanted w) c b place u (f.leaving place) x := by
  induction left generalizing s t with
  | zero => trivial
  | succ left ih =>
    rw [repeatWhile, lands_bind]
    refine (lands_once hb hmet).mono ?_ fun f x _ hf => ⟨0, s, .none, hf⟩
    rintro - u - ⟨v, hbody⟩
    rw [lands_bind]
    refine (lands_check hc u).mono ?_ fun f x _ hf => ⟨1, u, .more hmet hbody .none, hf⟩
    intro met x _ hnext
    cases met with
    | false => exact ⟨0, u, .more hmet hbody .none, hnext⟩
    | true =>
      refine (ih hnext).mono ?_ ?_
      · rintro - y - ⟨count, z, laps, hlast⟩
        exact ⟨count + 1, z, .more hmet hbody laps, hlast⟩
      · rintro f y - ⟨count, z, laps, hbreak⟩
        exact ⟨count + 1, z, .more hmet hbody laps, hbreak⟩

/-! ## From the laps of a loop to its run -/

/-- A loop with its laps behind it goes on from where they have led. -/
theorem goOn_of_laps {w : Keyword} {count : Nat} (h : host.Laps (wanted w) c b count s t) :
    ∃ enough, ∀ rounds, enough ≤ rounds → ∀ left,
      (check host rounds w w.text c >>=
          goOn (check host rounds w w.text c) (once host rounds b) (left + count)) s =
        (check host rounds w w.text c >>=
          goOn (check host rounds w w.text c) (once host rounds b) left) t := by
  induction h with
  | none => exact ⟨0, fun _ _ _ => rfl⟩
  | more hc hb _ ih =>
    obtain ⟨enough, hcondition⟩ := hc.of_le
    obtain ⟨enough', hbody⟩ := hb.of_le
    obtain ⟨enough'', hrest⟩ := ih
    refine ⟨max enough (max enough' enough''), fun rounds hle left => ?_⟩
    have hmet := check_of_bool (w := w) (hcondition rounds (by omega))
    rw [beq_self_eq_true] at hmet
    rw [bind_ok hmet, goOn, if_pos rfl, ← Nat.add_assoc, repeatWhile,
      bind_ok (once_of_yields (hbody rounds (by omega)))]
    exact hrest rounds (by omega) left

/-- A lap that is broken off breaks off whatever goes on with rounds once its condition is met. -/
theorem fails_of_breaks {w : Keyword} (hc : ∃ sp, c.place = .span sp)
    (hb : ∃ sp, b.place = .span sp) (h : host.Breaks (wanted w) c b place s f t) :
    ∃ enough, ∀ rounds, enough ≤ rounds → ∀ left (k : Bool → Run Value) (k' : Unit → Run Value),
      k true =
          repeatWhile (check host rounds w w.text c) (once host rounds b) (left + 1) >>= k' →
        located place (check host rounds w w.text c >>= k) s = (.error (.failure f), t) := by
  cases h with
  | condition hfails =>
    obtain ⟨sp, hplace⟩ := hc
    obtain ⟨enough, hcondition⟩ := hfails.of_le
    refine ⟨enough, fun rounds hle _ k _ _ => ?_⟩
    rw [located, bind_error (check_of_failure (hcondition rounds hle))]
    simp only [leaving_of_settled (hfails.settled hplace)]
  | notBoolean hyields hv =>
    obtain ⟨enough, hcondition⟩ := hyields.of_le
    refine ⟨enough, fun rounds hle _ k _ _ => ?_⟩
    rw [located, bind_error (check_of_kind (hcondition rounds hle) hv)]
    simp only [leaving_notBoolean]
  | body hyields hfails =>
    obtain ⟨sp, hplace⟩ := hb
    obtain ⟨enough, hcondition⟩ := hyields.of_le
    obtain ⟨enough', hbody⟩ := hfails.of_le
    refine ⟨max enough enough', fun rounds hle left k k' hk => ?_⟩
    have hmet := check_of_bool (w := w) (hcondition rounds (by omega))
    rw [beq_self_eq_true] at hmet
    rw [located, bind_ok hmet, hk, repeatWhile, bind_assoc,
      bind_error (once_of_failure (hbody rounds (by omega)))]
    simp only [leaving_of_settled (hfails.settled hplace)]

/-! ## Loops of a source -/

/-- The else branch of a conditional runs as what stands in it does. -/
theorem evalElse_eq (otherwise : Otherwise) :
    evalElse host rounds otherwise.toNodes =
      match branch? otherwise with
      | none => pure .null
      | some e => eval host rounds e := by
  have hinner {e : Node} {sp : Source.Span} (he : ∃ sp, e.place = .span sp) :
      eval host rounds (.tree .elseBlock [e] (.span sp)) = eval host rounds e := by
    obtain ⟨sp', hplace⟩ := he
    funext s
    rw [eval]
    exact located_of_settled _ (settled_of_span hplace s)
  cases otherwise with
  | absent => exact evalElse.eq_1 host rounds
  | block b =>
    rw [Otherwise.toNodes, evalElse]
    exact hinner (place_block b)
  | chain c =>
    rw [Otherwise.toNodes, evalElse]
    cases c
    exact hinner ⟨_, rfl⟩

/-- What follows the condition that ends a loop: the else branch if no lap has been made, and
nothing otherwise. -/
def Host.Closes (host : Host) : Option Node → Nat → State → State → Prop
  | some e, 0, s, t => ∃ v, host.Yields e s v t
  | _, _, s, t => t = s

end

section

variable (host : Host) {guard : Guard} (body : Block) (otherwise : Otherwise) (span : Source.Span)

theorem single_otherwise : otherwise.toNodes.length ≤ 1 := by
  cases otherwise with
  | absent => exact Nat.zero_le 1
  | block b | chain c => exact Nat.le_refl 1

variable {body otherwise span}

theorem eval_loop (hw : guard.keyword.label = .whileBlock) (rounds : Nat) :
    eval host rounds (Conditional.mk guard body otherwise span).toNode =
      let check := check host rounds guard.keyword guard.keyword.text guard.condition.toNode
      let once := once host rounds body.toNode
      located (.span span) (check >>= fun met =>
        if met then repeatWhile check once rounds >>= fun _ => pure .null
        else evalElse host rounds otherwise.toNodes) := by
  rw [Conditional.toNode, eval_conditional host rounds guard.keyword guard.keyword.text _ _ _ _
    (single_otherwise otherwise), proceed_whileBlock hw]

/-- A loop whose run ends has made laps, and then came to its close or to a break. -/
theorem lands_loop (hw : guard.keyword.label = .whileBlock) (rounds : Nat) (s : State) :
    (eval host rounds (Conditional.mk guard body otherwise span).toNode).Lands s
      (fun _ t => ∃ count u x,
        host.Laps (wanted guard.keyword) guard.condition.toNode body.toNode count s u ∧
        host.Yields guard.condition.toNode u (.bool (!wanted guard.keyword)) x ∧
        host.Closes (branch? otherwise) count x t)
      fun f t => ∃ count u,
        host.Laps (wanted guard.keyword) guard.condition.toNode body.toNode count s u ∧
        (host.Breaks (wanted guard.keyword) guard.condition.toNode body.toNode (.span span) u f t ∨
          count = 0 ∧ ∃ e x, branch? otherwise = some e ∧
            host.Yields guard.condition.toNode u (.bool (!wanted guard.keyword)) x ∧
            host.Fails e x f t) := by
  have hc := place_expr guard.condition
  have hb := place_block body
  rw [eval_loop host hw rounds, lands_located, lands_bind]
  refine (lands_check hc s).mono (fun met t _ hmet => ?_) fun f t _ hf => ⟨0, s, .none, .inl hf⟩
  cases met with
  | true =>
    rw [if_pos rfl, lands_bind]
    refine (lands_laps (.span span) hc hb rounds hmet).mono ?_ ?_
    · rintro - x - ⟨count, u, laps, hlast⟩
      refine ⟨count + 1, u, x, laps, hlast, ?_⟩
      cases branch? otherwise <;> rfl
    · rintro f x - ⟨count, u, laps, hbreak⟩
      exact ⟨count, u, laps, .inl hbreak⟩
  | false =>
    rw [if_neg (by decide), evalElse_eq]
    cases hbranch : branch? otherwise with
    | none => exact ⟨0, s, t, .none, hmet, rfl⟩
    | some e =>
      obtain ⟨sp, hplace⟩ := place_branch hbranch
      refine (lands_yields e t).mono (fun v u _ hv => ?_) fun f u _ hf => ?_
      · exact ⟨0, s, t, .none, hmet, v, hv⟩
      · rw [leaving_of_settled (hf.settled hplace)]
        exact ⟨0, s, .none, .inr ⟨rfl, e, t, rfl, hmet, hf⟩⟩

variable {host} {count : Nat} {s t u x : State} {f : Failure}

/-- With laps behind it, a loop goes on from where they have led, without its else branch. -/
theorem eval_of_laps (otherwise : Otherwise) (span : Source.Span)
    (hw : guard.keyword.label = .whileBlock)
    (laps : host.Laps (wanted guard.keyword) guard.condition.toNode body.toNode (count + 1) s u) :
    ∃ enough, ∀ rounds, enough ≤ rounds → ∃ left,
      eval host rounds (Conditional.mk guard body otherwise span).toNode s =
        let check := check host rounds guard.keyword guard.keyword.text guard.condition.toNode
        let once := once host rounds body.toNode
        located (.span span) (check >>= fun met =>
          goOn check once (left + 1) met >>= fun _ => pure .null) u := by
  obtain ⟨enough, hrest⟩ := goOn_of_laps laps
  cases laps with
  | more hc _ _ =>
    obtain ⟨enough', hcondition⟩ := hc.of_le
    refine ⟨max (count + 2) (max enough enough'), fun rounds hle => ?_⟩
    obtain ⟨left, hleft⟩ : ∃ left, rounds = left + 1 + (count + 1) :=
      ⟨rounds - (count + 2), by omega⟩
    refine ⟨left, ?_⟩
    have hmet := check_of_bool (w := guard.keyword) (hcondition rounds (by omega))
    rw [beq_self_eq_true] at hmet
    have hgoes := hrest rounds (by omega) (left + 1)
    rw [← hleft, bind_ok hmet, goOn, if_pos rfl] at hgoes
    rw [eval_loop host hw rounds]
    refine (located_congr _ ?_).trans (congrArg (located (.span span) · u) (bind_assoc ..))
    rw [bind_ok hmet, if_pos rfl]
    exact bind_congr _ hgoes

/-- A loop whose laps are followed by its close comes to a value. -/
theorem yields_of_closes (hw : guard.keyword.label = .whileBlock)
    (laps : host.Laps (wanted guard.keyword) guard.condition.toNode body.toNode count s u)
    (hlast : host.Yields guard.condition.toNode u (.bool (!wanted guard.keyword)) x)
    (hclose : host.Closes (branch? otherwise) count x t) :
    ∃ v, host.Yields (Conditional.mk guard body otherwise span).toNode s v t := by
  obtain ⟨enough, hcondition⟩ := hlast.of_le
  have hmet (rounds : Nat) (hle : enough ≤ rounds) :
      check host rounds guard.keyword guard.keyword.text guard.condition.toNode u =
        (.ok false, x) := by
    rw [check_of_bool (hcondition rounds hle)]
    cases wanted guard.keyword <;> rfl
  cases count with
  | zero =>
    cases laps
    cases hbranch : branch? otherwise with
    | none =>
      rw [hbranch] at hclose
      cases hclose
      refine ⟨.null, enough, ?_⟩
      rw [eval_loop host hw, located, bind_ok (hmet enough (Nat.le_refl _)), if_neg (by decide),
        evalElse_eq, hbranch]
      rfl
    | some e =>
      rw [hbranch] at hclose
      obtain ⟨v, hv⟩ := hclose
      obtain ⟨enough', hbranch'⟩ := hv.of_le
      refine ⟨v, max enough enough', ?_⟩
      rw [eval_loop host hw, located, bind_ok (hmet _ (by omega)), if_neg (by decide), evalElse_eq,
        hbranch]
      simp only [hbranch' _ (Nat.le_max_right enough enough')]
  | succ count =>
    have hstate : t = x := by
      cases hbranch : branch? otherwise <;> rw [hbranch] at hclose <;> exact hclose
    subst hstate
    obtain ⟨enough', hgoes⟩ := eval_of_laps otherwise span hw laps
    obtain ⟨left, heval⟩ := hgoes (max enough enough') (by omega)
    refine ⟨.null, max enough enough', heval.trans ?_⟩
    rw [located, bind_ok (hmet _ (by omega))]
    rfl

/-- A loop whose laps are followed by a break fails as the break does. -/
theorem fails_of_laps (hw : guard.keyword.label = .whileBlock)
    (laps : host.Laps (wanted guard.keyword) guard.condition.toNode body.toNode count s u)
    (hbreak : host.Breaks (wanted guard.keyword) guard.condition.toNode body.toNode (.span span)
      u f t) :
    host.Fails (Conditional.mk guard body otherwise span).toNode s f t := by
  obtain ⟨enough, hfails⟩ :=
    fails_of_breaks (place_expr guard.condition) (place_block body) hbreak
  cases count with
  | zero =>
    cases laps
    refine ⟨enough + 1, ?_⟩
    rw [eval_loop host hw]
    exact hfails (enough + 1) (Nat.le_succ enough) enough _ _ (if_pos rfl)
  | succ count =>
    obtain ⟨enough', hgoes⟩ := eval_of_laps otherwise span hw laps
    obtain ⟨left, heval⟩ := hgoes (max enough enough') (by omega)
    exact ⟨max enough enough', heval.trans (hfails _ (by omega) left _ _ rfl)⟩

/-- A loop without laps whose else branch fails fails as it does. -/
theorem fails_of_branch (hw : guard.keyword.label = .whileBlock) {e : Node}
    (hbranch : branch? otherwise = some e)
    (hlast : host.Yields guard.condition.toNode s (.bool (!wanted guard.keyword)) x)
    (hfails : host.Fails e x f t) :
    host.Fails (Conditional.mk guard body otherwise span).toNode s f t := by
  obtain ⟨sp, hplace⟩ := place_branch hbranch
  obtain ⟨enough, hcondition⟩ := hlast.of_le
  obtain ⟨enough', he⟩ := hfails.of_le
  have hmet : check host (max enough enough') guard.keyword guard.keyword.text
      guard.condition.toNode s = (.ok false, x) := by
    rw [check_of_bool (hcondition _ (Nat.le_max_left ..))]
    cases wanted guard.keyword <;> rfl
  refine ⟨max enough enough', ?_⟩
  rw [eval_loop host hw, located, bind_ok hmet, if_neg (by decide), evalElse_eq, hbranch]
  simp only [he _ (Nat.le_max_right enough enough'), leaving_of_settled (hfails.settled hplace)]

end

/-- A loop comes to its end exactly if there is a number of laps behind which its condition says no,
and then does nothing more, or runs its else branch if there were no laps. It fails exactly if there
is a number of laps behind which a lap is broken off, with the failure that broke it off and in the
state that the steps so far have led to, or if there were no laps and its else branch fails. -/
theorem loop_ends_iff (host : Host) {guard : Guard} (hw : guard.keyword.label = .whileBlock)
    (body : Block) (otherwise : Otherwise) (span : Source.Span) (s t : State) :
    let loop := (Conditional.mk guard body otherwise span).toNode
    let condition := guard.condition.toNode
    let go := wanted guard.keyword
    ((∃ v, host.Yields loop s v t) ↔
        ∃ count u x, host.Laps go condition body.toNode count s u ∧
          host.Yields condition u (.bool !go) x ∧ host.Closes (branch? otherwise) count x t) ∧
      ∀ f, host.Fails loop s f t ↔
        ∃ count u, host.Laps go condition body.toNode count s u ∧
          (host.Breaks go condition body.toNode (.span span) u f t ∨
            count = 0 ∧ ∃ e x, branch? otherwise = some e ∧
              host.Yields condition u (.bool !go) x ∧ host.Fails e x f t) := by
  refine ⟨⟨?_, ?_⟩, fun f => ⟨?_, ?_⟩⟩
  · rintro ⟨v, rounds, hr⟩
    exact (lands_of_ok hr).mp (lands_loop host hw rounds s)
  · rintro ⟨count, u, x, laps, hlast, hclose⟩
    exact yields_of_closes hw laps hlast hclose
  · rintro ⟨rounds, hr⟩
    exact (lands_of_failure hr).mp (lands_loop host hw rounds s)
  · rintro ⟨count, u, laps, hbreak | ⟨rfl, e, x, hbranch, hlast, hfails⟩⟩
    · exact fails_of_laps hw laps hbreak
    · cases laps
      exact fails_of_branch hw hbranch hlast hfails

/-- A loop with an else branch, which starts out with its condition false: it makes its laps, and
prints no more than they do. -/
theorem loop_ends_iff_until :
    let here : Source.Span := ⟨⟨0, 1, 1⟩, ⟨0, 1, 1⟩⟩
    let i := Expr.name ⟨"i", here⟩
    let one := Expr.literal .integer ⟨"1", here⟩
    let guard : Guard := ⟨.untilWord, here, .binary .comparison i ⟨">", here⟩ one here⟩
    let body := Block.mk [.call ⟨"Print", here⟩ [i] here,
      .assign ⟨"i", here⟩ (.binary .sum i ⟨"+", here⟩ one here) here] here
    let otherwise := Otherwise.block (.mk [.call ⟨"Print", here⟩ [] here] here)
    let s := State.mk (Registry.standard.environment.define "i" (.int 0)) []
    guard.keyword.label = .whileBlock ∧ ∃ count u x t,
      Host.standard.Laps false guard.condition.toNode body.toNode count s u ∧
      Host.standard.Yields guard.condition.toNode u (.bool true) x ∧
      Host.standard.Closes (branch? otherwise) count x t ∧ Event.output t.log = "0\n1\n" := by
  intro here i one guard body otherwise s
  have hrun : (eval .standard 3 (Conditional.mk guard body otherwise here).toNode s).1.isOk = true ∧
      Event.output (eval .standard 3 (Conditional.mk guard body otherwise here).toNode s).2.log =
        "0\n1\n" := by
    decide +kernel
  have hlabel : guard.keyword.label = .whileBlock := rfl
  rcases heval : eval .standard 3 (Conditional.mk guard body otherwise here).toNode s with
    ⟨stop | v, t⟩
  · rw [heval] at hrun
    cases hrun.1
  · rw [heval] at hrun
    obtain ⟨count, u, x, laps, hlast, hclose⟩ :=
      (loop_ends_iff Host.standard hlabel body otherwise here s t).1.mp ⟨v, 3, heval⟩
    exact ⟨hlabel, count, u, x, t, laps, hlast, hclose, hrun.2⟩

end Scriptlet
