import Scriptlet.Proofs.Keeping
import Scriptlet.Proofs.Safety
/-!
# Sound values

The values that a run can come by, from any tree: whole numbers are words, and no function turns up
that was not bound at the start. That needs the functions of the host to play along, since they may
answer anything (`Host.Faithful`). Every operator keeps to words because its result is folded, and
makes no function; the rest of the evaluator only passes values on. Main statement:
`sound_of_reaches`.
-/

namespace Scriptlet

open Source (Level)

def Environment.Lends (env : Environment) (c : Callable) : Prop :=
  ∃ name, env.get? name = some (.callable c)

/-- A word if it is a whole number, and one of some functions if it is a function. -/
structure Value.Sound (K : Callable → Prop) (v : Value) : Prop where
  word : ∀ n, v = .int n → InRange n
  within : v.Within K

def Event.Sound (K : Callable → Prop) : Event → Prop
  | .bind _ v => v.Sound K
  | .enter c args => K c ∧ ∀ v ∈ args, v.Sound K
  | .call .. | .print _ => True

/-- All values of a state are sound: those it binds, and those of its events. -/
structure State.Sound (K : Callable → Prop) (s : State) : Prop where
  bound : ∀ name v, s.env.get? name = some v → v.Sound K
  seen : ∀ e ∈ s.log, e.Sound K

/-- Given sound arguments, the functions of a host among some answer no number but a word, and no
function but those and the ones in their arguments. -/
def Host.Faithful (host : Host) (K : Callable → Prop) : Prop :=
  ∀ c, K c → ∀ args : List Value, (∀ v ∈ args, v.Sound K) →
    ∀ v, (host.reply c.ident args).answer = .value v →
      (∀ n, v = .int n → InRange n) ∧ ∀ d, v = .callable d → .callable d ∈ args ∨ K d

/-! ## Operators -/

section

variable {K : Callable → Prop} {v : Value}

theorem inRange_of_onInts {o : ArithOp} {a b r : Int} (h : o.onInts a b = .ok r) : InRange r := by
  cases o with
  | add | subtract | multiply =>
    cases h
    exact wrap_range _
  | divide =>
    rw [ArithOp.onInts] at h
    split at h <;> cases h
    exact wrap_range _

theorem sound_int {n : Int} (h : InRange n) : Value.Sound K (.int n) := by
  refine ⟨fun m hm => ?_, fun c hc => ?_⟩
  · cases hm
    exact h
  · cases hc

/-- A value that is neither a whole number nor a function is sound. -/
theorem sound_of_kind (hint : v.kind ≠ .int) (hcallable : v.kind ≠ .callable) : v.Sound K := by
  constructor
  · rintro n rfl
    exact absurd rfl hint
  · rintro c rfl
    exact absurd rfl hcallable

theorem sound_bool (b : Bool) : Value.Sound K (.bool b) := sound_of_kind nofun nofun

theorem sound_of_literalValue {kind : TokenKind} {raw : String}
    (h : literalValue kind raw = .ok v) : v.Sound K :=
  ⟨fun _ hn => inRange_of_literalValue (hn ▸ h), literalValue_within h⟩

theorem sound_of_negate {a : Value} (h : negate a = .ok v) : v.Sound K := by
  cases a with
  | int n =>
    cases h
    exact sound_int (wrap_range _)
  | float x =>
    cases h
    exact sound_of_kind nofun nofun
  | null | string | bool | callable => cases h

theorem sound_of_applyArithmetic {op : String} {a b : Value}
    (h : applyArithmetic op a b = .ok v) : v.Sound K := by
  unfold applyArithmetic at h
  split at h
  next => cases h
  next o _ =>
    split at h
    next m n =>
      cases hr : o.onInts m n with
      | error f =>
        rw [hr] at h
        cases h
      | ok r =>
        rw [hr] at h
        cases h
        exact sound_int (inRange_of_onInts hr)
    next =>
      split at h
      next x y _ _ =>
        rcases both_cases x y fun a b => Value.float (o.onFloats a b) with ⟨_, _, hv⟩ | ⟨f, hf, -⟩
        · have heq := hv.symm.trans h
          cases heq
          exact sound_of_kind nofun nofun
        · have heq := hf.symm.trans h
          cases heq
      next =>
        split at h
        · rcases both_cases a.write b.write fun s t => Value.string (s ++ t) with
            ⟨_, _, hv⟩ | ⟨f, hf, -⟩
          · have heq := hv.symm.trans h
            cases heq
            exact sound_of_kind nofun nofun
          · have heq := hf.symm.trans h
            cases heq
        · cases h

theorem sound_of_applyOperator {level : Level} {op : String} {a b : Value}
    (h : applyOperator level op a b = .ok v) : v.Sound K := by
  cases level with
  | comparison =>
    rw [applyOperator] at h
    cases hr : applyComparison op a b with
    | error f =>
      rw [hr] at h
      cases h
    | ok r =>
      rw [hr] at h
      cases h
      exact sound_bool r
  | sum | product => exact sound_of_applyArithmetic h

end

/-! ## Runs -/

section

variable {host : Host} {K : Callable → Prop} {s : State}

theorem State.Sound.record {e : Event} (hs : s.Sound K) (he : e.Sound K) :
    State.Sound K { s with log := e :: s.log } :=
  ⟨hs.bound, List.forall_mem_cons.mpr ⟨he, hs.seen⟩⟩

theorem State.Sound.assign {name : String} {v : Value} (hs : s.Sound K) (hv : v.Sound K) :
    (s.assign name v).Sound K := by
  refine ⟨fun key w hw => ?_, List.forall_mem_cons.mpr ⟨hv, hs.seen⟩⟩
  rcases Environment.eq_or_of_get?_define hw with rfl | hw
  · exact hv
  · exact hs.bound key w hw

theorem State.Within.assign {name : String} {v : Value} (hs : s.Within K) (hv : v.Within K) :
    (s.assign name v).Within K := by
  intro key w hw
  rcases Environment.eq_or_of_get?_define hw with rfl | hw
  · exact hv
  · exact hs key w hw

/-- No step but the answer of a host brings in functions. -/
theorem within_kept (closed : ∀ c, K c → ∀ args : List Value, (∀ v ∈ args, v.Within K) →
      ∀ v, (host.reply c.ident args).answer = .value v → v.Within K) :
    Kept host (State.Within K) (Value.Within K) where
  null := within_null
  literal h := literalValue_within h
  operator _ _ h := (sound_of_applyOperator h).within
  negate _ h := negate_within h
  bound hs h := hs _ _ h
  called hs := hs
  entered hs _ _ := hs
  printed hs := hs
  answered hc hargs h := closed _ (hc _ rfl) _ hargs _ h

/-- No step but the answer of a host breaks soundness, and a faithful one does not either. -/
theorem sound_kept (faithful : host.Faithful K) : Kept host (State.Sound K) (Value.Sound K) where
  null := sound_of_kind nofun nofun
  literal h := sound_of_literalValue h
  operator _ _ h := sound_of_applyOperator h
  negate _ h := sound_of_negate h
  bound hs h := hs.bound _ _ h
  called hs := hs.record trivial
  entered hs hc hargs := hs.record ⟨hc.within _ rfl, hargs⟩
  printed hs := hs.record trivial
  answered {c args v} hc hargs h := by
    obtain ⟨hword, hknown⟩ := faithful c (hc.within c rfl) args hargs v h
    refine ⟨hword, fun d hd => ?_⟩
    rcases hknown d hd with hmem | hK
    · exact (hargs _ hmem).within d rfl
    · exact hK

theorem keeps_sound (faithful : host.Faithful K) (rounds : Nat) (n : Node) :
    Keeps host rounds (State.Sound K) (Value.Sound K) n :=
  keeps_of_kept (sound_kept faithful) State.Sound.assign n

/-- Before its first step, a run has no values but those of its environment. -/
theorem sound_start {env : Environment}
    (words : ∀ name n, env.get? name = some (.int n) → InRange n) :
    State.Sound env.Lends ⟨env, []⟩ := by
  refine ⟨fun name v hv => ⟨?_, ?_⟩, List.forall_mem_nil _⟩
  · rintro n rfl
    exact words name n hv
  · rintro c rfl
    exact ⟨name, hv⟩

/-- Evaluate any tree in an environment whose whole numbers are words, with functions of the host
that answer no number but words and no function but from their arguments and the environment. Then,
in every state in which a node is entered and after every node, be it with a value or with a
failure, what is bound, what was given to functions of the host, and the value itself is sound: each
whole number is a word, and each function was bound at the start. -/
theorem sound_of_reaches {env : Environment}
    (words : ∀ name n, env.get? name = some (.int n) → InRange n)
    (faithful : host.Faithful env.Lends) {rounds : Nat} {n m : Node} {t : State}
    (h : Reaches host rounds n ⟨env, []⟩ m t) :
    t.Sound env.Lends ∧
      (eval host rounds m).Lands t (fun v u => u.Sound env.Lends ∧ v.Sound env.Lends)
        fun _ u => u.Sound env.Lends := by
  have hkeeps : ∀ k, Keeps host rounds (State.Sound env.Lends) (Value.Sound env.Lends) k :=
    keeps_sound faithful rounds
  have ht : t.Sound env.Lends := state_of_reaches hkeeps (sound_start words) h
  exact ⟨ht, hkeeps m t ht⟩

end

/-- The standard functions answer floats and `null` only. -/
theorem sound_of_standard {ident : Nat} {args : List Value} {v : Value}
    (h : (Host.standard.reply ident args).answer = .value v) : v.Sound fun _ => False := by
  match ident with
  | 0 =>
    have hpow : (Host.pow args).answer = .value v := h
    unfold Host.pow at hpow
    split at hpow
    · split at hpow
      · cases hpow
        exact sound_of_kind nofun nofun
      all_goals
        unfold Host.inconvertible at hpow
        split at hpow <;> cases hpow
    · cases hpow
  | 1 =>
    have hprint : (Host.print args).answer = .value v := h
    unfold Host.print Host.printLine at hprint
    split at hprint <;> cases hprint
    exact sound_of_kind nofun nofun
  | k + 2 => cases h

theorem standard_faithful (K : Callable → Prop) : Host.standard.Faithful K := by
  intro c _ args _ v h
  have hsound := sound_of_standard h
  exact ⟨hsound.word, fun d hd => (hsound.within d hd).elim⟩

/-- The least word has itself for its opposite, and stays a word. -/
theorem sound_of_reaches_least :
    let env := Registry.standard.environment.define "x" (.int intMin)
    let n : Node := .tree .negate [.token .identifier "x" .unknown] .unknown
    (∀ name k, env.get? name = some (.int k) → InRange k) ∧ Host.standard.Faithful env.Lends ∧
      Reaches .standard 1 n ⟨env, []⟩ n ⟨env, []⟩ ∧
      eval .standard 1 n ⟨env, []⟩ = (.ok (.int intMin), ⟨env, []⟩) ∧
      State.Sound env.Lends ⟨env, []⟩ ∧ Value.Sound env.Lends (.int intMin) := by
  intro env n
  have hwords : ∀ name k, env.get? name = some (.int k) → InRange k := by
    intro name k h
    rw [Environment.get?_define] at h
    split at h
    · cases h
      decide
    · have hfunctions : ∀ b ∈ Registry.standard.environment.bindings, b.2 ≠ .int k := by
        simp [Registry.standard, Registry.environment, Environment.define, Environment.rebind,
          Environment.empty]
      exact absurd rfl (hfunctions _ (Environment.mem_of_get? h))
  have heval : eval .standard 1 n ⟨env, []⟩ = (.ok (.int intMin), ⟨env, []⟩) := by
    simp only [n, eval, evalToken, lookUp]
    rfl
  obtain ⟨hstate, hlands⟩ := sound_of_reaches hwords (standard_faithful _) (m := n) .here
  have hvalue := (Run.lands_of_ok heval).mp hlands
  exact ⟨hwords, standard_faithful _, .here, heval, hstate, hvalue.2⟩

end Scriptlet
