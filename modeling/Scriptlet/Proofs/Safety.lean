import Scriptlet.Host.Standard
import Scriptlet.Proofs.Entering
import Scriptlet.Proofs.Shape
/-!
# Safety of programs

A source that is read never brings evaluation to a node of the wrong shape, to a label or to a kind
of literal without a meaning. The one thing that it may ask for in vain is an operator that has no
meaning, and that shows only when both operands have a value. Functions of the host count as far as
the program can come by them (`Available`). Main statement: `fault_of_reaches`.
-/

namespace Scriptlet

open Source (Keyword Level LiteralKind Shaped)

/-- The functions that a program can come by: those that its environment binds, and those that such
a function answers when it is given no others. -/
inductive Available (host : Host) (env : Environment) : Callable → Prop where
  | bound {name : String} {c : Callable} (h : env.get? name = some (.callable c)) :
      Available host env c
  | answered {c d : Callable} {args : List Value} (hc : Available host env c)
      (hargs : ∀ e, .callable e ∈ args → Available host env e)
      (h : (host.reply c.ident args).answer = .value (.callable d)) : Available host env d

/-- A value is no function, or one of some functions. -/
def Value.Within (K : Callable → Prop) (v : Value) : Prop := ∀ c, v = .callable c → K c

def State.Within (K : Callable → Prop) (s : State) : Prop :=
  ∀ name v, s.env.get? name = some v → v.Within K

/-- A fault that is neither one of shape nor a wish for what is not there. -/
def Fault.Ordinary (f : Fault) : Prop := f.faultClass ≠ .shape ∧ f.faultClass ≠ .unsupported

def Host.Tame (host : Host) (K : Callable → Prop) : Prop :=
  ∀ c, K c → ∀ args f, (host.reply c.ident args).answer = .fails f → f.Ordinary

/-- The operators that the grammar has and evaluation does not. -/
def senseless : List String := ["%", "==", "!=", "<=", ">="]

def unknownOperator (level : Level) (op : String) : Fault :=
  match level with
  | .comparison => .unknownComparator op
  | .sum | .product => .unknownArithmetic op

/-- A node is an operator without a meaning whose operands have values, and fails for that. -/
inductive Senseless (host : Host) (rounds : Nat) : Node → State → Fault → State → Prop where
  | intro {level : Level} {lhs rhs : Node} {op : String} {p place : Place} {s t u : State}
      {a b : Value} (hl : eval host rounds lhs s = (.ok a, t))
      (hr : eval host rounds rhs t = (.ok b, u)) (mem : op ∈ senseless) :
      Senseless host rounds (.tree level.label [lhs, .token level.tokenKind op p, rhs] place) s
        (unknownOperator level op) u

/-- A failure, of a node evaluated from a state, that a program may have. -/
def Allowed (host : Host) (rounds : Nat) (n : Node) (s : State) (f : Failure) (t : State) : Prop :=
  f.fault.faultClass ≠ .shape ∧
    (f.fault.faultClass = .unsupported →
      ∃ m u, Reaches host rounds n s m u ∧ Senseless host rounds m u f.fault t)

/-! ## Calculations -/

theorem Fault.ordinary_of_class {f : Fault} (c : FaultClass) (h : f.faultClass = c)
    (hc : c ≠ .shape ∧ c ≠ .unsupported) : f.Ordinary := by
  rw [Fault.Ordinary, h]
  exact hc

theorem literalValue_ordinary {kind : LiteralKind} {raw : String} {f : Fault}
    (h : literalValue kind.tokenKind raw = .error f) : f.Ordinary := by
  cases kind <;> simp only [LiteralKind.tokenKind, literalValue, integerValue, reduceCtorEq] at h
  case integer =>
    split at h
    next =>
      split at h <;> cases h
      exact Fault.ordinary_of_class .arithmetic rfl (by decide)
    next =>
      cases h
      exact Fault.ordinary_of_class .foreign rfl (by decide)
    next =>
      cases h
      exact Fault.ordinary_of_class .foreign rfl (by decide)
  case float =>
    split at h <;> cases h
    exact Fault.ordinary_of_class .foreign rfl (by decide)

theorem literalValue_within {K : Callable → Prop} {kind : TokenKind} {raw : String} {v : Value}
    (h : literalValue kind raw = .ok v) : v.Within K := by
  rintro c rfl
  unfold literalValue integerValue at h
  split at h <;> (try split at h) <;> (try split at h) <;> simp_all

theorem negate_ordinary {v : Value} {f : Fault} (h : negate v = .error f) : f.Ordinary := by
  unfold negate at h
  split at h <;> cases h
  exact Fault.ordinary_of_class .type rfl (by decide)

theorem negate_within {K : Callable → Prop} {v w : Value} (h : negate v = .ok w) :
    w.Within K := by
  rintro c rfl
  unfold negate at h
  split at h <;> cases h

theorem conditionMet_ordinary {word wanted : String} {v : Value} {f : Fault}
    (h : conditionMet word wanted v = .error f) : f.Ordinary := by
  cases v with
  | bool b => cases h
  | _ =>
    cases h
    exact Fault.ordinary_of_class .type rfl (by decide)

theorem asFloat_ordinary {v : Value} {x : Except Fault Float} {f : Fault}
    (hx : v.asFloat? = some x) (h : x = .error f) : f.Ordinary := by
  rw [h] at hx
  rw [eq_of_asFloat? hx]
  exact Fault.ordinary_of_class .foreign rfl (by decide)

theorem write_ordinary {v : Value} {f : Fault} (h : v.write = .error f) : f.Ordinary := by
  rw [eq_of_write h]
  exact Fault.ordinary_of_class .foreign rfl (by decide)

/-- What two parts make if both are there, and the fault of one of them if not. -/
theorem both_cases {α β : Type} (x y : Except Fault α) (g : α → α → β) :
    (∃ a b, (do pure (g (← x) (← y)) : Except Fault β) = .ok (g a b)) ∨
      ∃ f, (do pure (g (← x) (← y)) : Except Fault β) = .error f ∧
        (x = .error f ∨ y = .error f) := by
  cases x with
  | error f => exact .inr ⟨f, rfl, .inl rfl⟩
  | ok a =>
    cases y with
    | error f => exact .inr ⟨f, rfl, .inr rfl⟩
    | ok b => exact .inl ⟨a, b, rfl⟩

/-- A known operator of sums and products gives a value that is no function, or an ordinary
fault. -/
theorem applyArithmetic_known {o : ArithOp} {op : String} (ho : ArithOp.ofText? op = some o)
    (a b : Value) :
    (∃ v, applyArithmetic op a b = .ok v ∧ ∀ K, v.Within K) ∨
      ∃ f, applyArithmetic op a b = .error f ∧ f.Ordinary := by
  simp only [applyArithmetic, ho]
  split
  next m n =>
    cases hr : o.onInts m n with
    | ok r => exact .inl ⟨.int r, rfl, fun K c h => by cases h⟩
    | error f =>
      refine .inr ⟨f, rfl, ?_⟩
      cases o with
      | divide =>
        rw [ArithOp.onInts] at hr
        split at hr <;> cases hr
        exact Fault.ordinary_of_class .arithmetic rfl (by decide)
      | _ => cases hr
  next =>
    split
    next x y hx hy =>
      rcases both_cases x y fun a b => Value.float (o.onFloats a b) with ⟨_, _, h⟩ | ⟨f, h, hf⟩
      · exact .inl ⟨_, h, fun K c h => by cases h⟩
      · exact .inr ⟨f, h, hf.elim (asFloat_ordinary hx) (asFloat_ordinary hy)⟩
    next =>
      split
      · rcases both_cases a.write b.write fun s t => Value.string (s ++ t) with
          ⟨_, _, h⟩ | ⟨f, h, hf⟩
        · exact .inl ⟨_, h, fun K c h => by cases h⟩
        · exact .inr ⟨f, h, hf.elim write_ordinary write_ordinary⟩
      · exact .inr ⟨_, rfl, Fault.ordinary_of_class .type rfl (by decide)⟩

theorem applyComparison_known {o : Comparator} {op : String} (ho : Comparator.ofText? op = some o)
    (a b : Value) :
    (∃ r, applyComparison op a b = .ok r) ∨
      ∃ f, applyComparison op a b = .error f ∧ f.Ordinary := by
  simp only [applyComparison, ho]
  split
  · exact .inl ⟨_, rfl⟩
  · split
    next x y hx hy =>
      rcases both_cases x y o.onFloats with ⟨_, _, h⟩ | ⟨f, h, hf⟩
      · exact .inl ⟨_, h⟩
      · exact .inr ⟨f, h, hf.elim (asFloat_ordinary hx) (asFloat_ordinary hy)⟩
    · exact .inr ⟨_, rfl, Fault.ordinary_of_class .type rfl (by decide)⟩

def Unknown (level : Level) (op : String) : Prop :=
  match level with
  | .comparison => Comparator.ofText? op = none
  | .sum | .product => ArithOp.ofText? op = none

theorem senseless_of_comparison :
    ∀ op ∈ Source.Terminal.compareOp.texts, Comparator.ofText? op = none → op ∈ senseless := by
  decide

theorem senseless_of_sum :
    ∀ op ∈ Source.Terminal.addOp.texts, ArithOp.ofText? op = none → op ∈ senseless := by
  decide

theorem senseless_of_product :
    ∀ op ∈ Source.Terminal.mulOp.texts, ArithOp.ofText? op = none → op ∈ senseless := by
  decide

theorem senseless_of_unknown {level : Level} {op : String} (mem : op ∈ level.terminal.texts)
    (h : Unknown level op) : op ∈ senseless := by
  cases level with
  | comparison => exact senseless_of_comparison op mem h
  | sum => exact senseless_of_sum op mem h
  | product => exact senseless_of_product op mem h

/-- An operator gives a value that is no function, fails in an ordinary way, or fails because it has
no meaning. -/
theorem applyOperator_cases (level : Level) (op : String) (a b : Value) :
    (∃ v, applyOperator level op a b = .ok v ∧ ∀ K, v.Within K) ∨
      ∃ f, applyOperator level op a b = .error f ∧
        (f.Ordinary ∨ Unknown level op ∧ f = unknownOperator level op) := by
  have harith : (∃ v, applyArithmetic op a b = .ok v ∧ ∀ K, v.Within K) ∨
      ∃ f, applyArithmetic op a b = .error f ∧
        (f.Ordinary ∨ ArithOp.ofText? op = none ∧ f = .unknownArithmetic op) := by
    cases ho : ArithOp.ofText? op with
    | none =>
      refine .inr ⟨.unknownArithmetic op, ?_, .inr ⟨rfl, rfl⟩⟩
      rw [applyArithmetic, ho]
    | some o =>
      rcases applyArithmetic_known ho a b with h | ⟨f, hf, hord⟩
      · exact .inl h
      · exact .inr ⟨f, hf, .inl hord⟩
  cases level with
  | comparison =>
    cases ho : Comparator.ofText? op with
    | none =>
      refine .inr ⟨.unknownComparator op, ?_, .inr ⟨ho, rfl⟩⟩
      rw [applyOperator, applyComparison, ho]
      rfl
    | some o =>
      rcases applyComparison_known ho a b with ⟨r, hr⟩ | ⟨f, hf, hord⟩
      · refine .inl ⟨.bool r, ?_, fun K c h => by cases h⟩
        rw [applyOperator, hr]
        rfl
      · refine .inr ⟨f, ?_, .inl hord⟩
        rw [applyOperator, hf]
        rfl
  | sum | product => exact harith

/-! ## Calls -/

section

variable {host : Host} {K : Callable → Prop} {s : State} {fails : Failure → State → Prop}

theorem lookUp_lands (hs : s.Within K) (hf : ∀ f t, f.fault.Ordinary → fails f t) (name : String) :
    (lookUp name).Lands s (fun v t => t.Within K ∧ v.Within K) fails := by
  simp only [lookUp, Run.lands_bind, Run.lands_environment]
  split
  next v h => exact ⟨hs, hs name v h⟩
  next => exact hf _ _ (Fault.ordinary_of_class .name rfl (by decide))

/-- A call of a function among some, with functions among these in its arguments. -/
theorem invoke_lands (tame : host.Tame K)
    (closed : ∀ c, K c → ∀ args : List Value, (∀ v ∈ args, v.Within K) →
      ∀ v, (host.reply c.ident args).answer = .value v → v.Within K)
    (hs : s.Within K) (hf : ∀ f t, f.fault.Ordinary → fails f t) {c : Callable} (hc : K c)
    {args : List Value} (hargs : ∀ v ∈ args, v.Within K) :
    (invoke host c args).Lands s (fun v t => t.Within K ∧ v.Within K) fails := by
  have htype : ∀ {f : Fault} {t}, f.faultClass = .type → fails ⟨f, none⟩ t :=
    fun h => hf _ _ (Fault.ordinary_of_class .type h (by decide))
  have hout : (carryOut host c args).Lands s (fun v t => t.Within K ∧ v.Within K) fails := by
    simp only [carryOut, Run.lands_bind, Run.lands_record]
    refine Run.lands_print _ fun log => ?_
    cases ha : (host.reply c.ident args).answer with
    | value v => exact ⟨hs, closed c hc args hargs v ha⟩
    | nothing => exact ⟨hs, fun c h => by cases h⟩
    | foreign typeName => exact htype rfl
    | incomputable reason => exact hf _ _ (Fault.ordinary_of_class .arithmetic rfl (by decide))
    | rejected reason => exact htype rfl
    | fails f => exact hf _ _ (tame c hc args f ha)
  rw [invoke_eq]
  split
  · split
    · exact htype rfl
    · exact hout
  · exact hout

theorem callNamed_lands (tame : host.Tame K)
    (closed : ∀ c, K c → ∀ args : List Value, (∀ v ∈ args, v.Within K) →
      ∀ v, (host.reply c.ident args).answer = .value v → v.Within K)
    (hs : s.Within K) (hf : ∀ f t, f.fault.Ordinary → fails f t) (name : String)
    {args : List Value} (hargs : ∀ v ∈ args, v.Within K) :
    (callNamed host name args).Lands s (fun v t => t.Within K ∧ v.Within K) fails := by
  simp only [callNamed, resolveCallee, Run.lands_bind, Run.lands_environment]
  split
  next c h =>
    have hc : K c := hs name _ h c rfl
    exact invoke_lands (s := { s with log := .call name args.length :: s.log }) tame closed hs hf hc
      hargs
  next => exact hf _ _ (Fault.ordinary_of_class .type rfl (by decide))
  next => exact hf _ _ (Fault.ordinary_of_class .name rfl (by decide))

end

/-! ## Nodes -/

section

variable {host : Host} {rounds : Nat} {K : Callable → Prop} {n : Node} {s : State}

theorem Allowed.of_ordinary {f : Failure} {t : State} (h : f.fault.Ordinary) :
    Allowed host rounds n s f t :=
  ⟨h.1, fun hu => absurd hu h.2⟩

/-- What a child may do, the node around it may do. -/
theorem Allowed.enter {m : Node} {f : Failure} {t u : State} (he : Enters host rounds n s m t)
    (h : Allowed host rounds m t f u) : Allowed host rounds n s f u := by
  refine ⟨h.1, fun hu => ?_⟩
  obtain ⟨k, v, hreach, hk⟩ := h.2 hu
  exact ⟨k, v, .into he hreach, hk⟩

/-- A place changes no fault. -/
theorem lands_located_allowed {α : Type} {r : Run α} {t : State} {post : α → State → Prop}
    {place : Place} (h : r.Lands t post (Allowed host rounds n s)) :
    (Run.located place r).Lands t post (Allowed host rounds n s) := by
  rw [Run.lands_located]
  refine h.mono (fun _ _ _ ha => ha) fun f u _ hf => ?_
  unfold Allowed at hf ⊢
  rwa [fault_leaving]

variable (host rounds K) in
/-- A node fails from no state otherwise than it may, and comes by no other functions. -/
def Safe (n : Node) : Prop :=
  ∀ s : State, s.Within K →
    (eval host rounds n).Lands s (fun v t => t.Within K ∧ v.Within K) (Allowed host rounds n s)

theorem Safe.enter {m : Node} {t : State} (h : Safe host rounds K m)
    (he : Enters host rounds n s m t) (ht : t.Within K) :
    (eval host rounds m).Lands t (fun v u => u.Within K ∧ v.Within K)
      (Allowed host rounds n s) :=
  (h t ht).mono (fun _ _ _ ha => ha) fun _ _ _ hf => hf.enter he

theorem within_null : Value.Within K .null := fun _ h => by cases h

theorem safe_constant (kind : LiteralKind) (text : String) (p place : Place) :
    Safe host rounds K (.tree .constant [.token kind.tokenKind text p] place) := by
  intro s hs
  rw [eval]
  refine lands_located_allowed ?_
  rw [Run.lands_ofExcept]
  exact ⟨fun v hv => ⟨hs, literalValue_within hv⟩,
    fun f hf => .of_ordinary (literalValue_ordinary hf)⟩

theorem safe_name (text : String) (p place : Place) :
    Safe host rounds K (.tree .identifier [.token .identifier text p] place) := by
  intro s hs
  rw [eval]
  refine lands_located_allowed ?_
  exact lookUp_lands hs (fun _ _ => .of_ordinary) text

theorem safe_negate {operand : Node} {place : Place} (h : Safe host rounds K operand) :
    Safe host rounds K (.tree .negate [operand] place) := by
  intro s hs
  rw [eval]
  refine lands_located_allowed ?_
  rw [Run.lands_bind]
  refine (h.enter .operand hs).weaken fun v t _ ht => ?_
  rw [Run.lands_ofExcept]
  exact ⟨fun w hw => ⟨ht.1, negate_within hw⟩, fun f hf => .of_ordinary (negate_ordinary hf)⟩

theorem safe_binary {level : Level} {lhs rhs : Node} {op : String} {p place : Place}
    (mem : op ∈ level.terminal.texts) (hl : Safe host rounds K lhs) (hr : Safe host rounds K rhs) :
    Safe host rounds K (.tree level.label [lhs, .token level.tokenKind op p, rhs] place) := by
  intro s hs
  rw [eval_binary]
  refine lands_located_allowed ?_
  rw [Run.lands_bind]
  refine (hl.enter .left hs).weaken fun a t ha ht => ?_
  rw [Run.lands_bind]
  refine (hr.enter (.right ha) ht.1).weaken fun b u hb hu => ?_
  rw [Run.lands_ofExcept]
  rcases applyOperator_cases level op a b with ⟨v, hv, hwithin⟩ | ⟨f, hf, hord | ⟨hunknown, rfl⟩⟩
  · rw [hv]
    exact ⟨fun w hw => ⟨hu.1, by cases hw; exact hwithin K⟩, fun f h => by cases h⟩
  · rw [hf]
    exact ⟨fun w h => (by cases h), fun g hg => .of_ordinary (by cases hg; exact hord)⟩
  · rw [hf]
    refine ⟨fun w h => (by cases h), fun g hg => ?_⟩
    cases hg
    refine ⟨?_, fun _ => ⟨_, s, .here, .intro ha hb (senseless_of_unknown mem hunknown)⟩⟩
    cases level <;> exact fun h => by cases h

theorem safe_assignment {name : String} {source : Node} {p place : Place}
    (h : Safe host rounds K source) :
    Safe host rounds K (.tree .assignment [.token .identifier name p, source] place) := by
  intro s hs
  rw [eval]
  refine lands_located_allowed ?_
  rw [expectName, pure_bind, Run.lands_bind]
  refine (h.enter .source hs).weaken fun v t _ ht => ?_
  rw [Run.lands_bind, Run.lands_define]
  refine ⟨fun key w hw => ?_, within_null⟩
  rw [Environment.get?_define] at hw
  split at hw
  · cases hw
    exact ht.2
  · exact ht.1 key w hw

theorem safe_call (tame : host.Tame K)
    (closed : ∀ c, K c → ∀ args : List Value, (∀ v ∈ args, v.Within K) →
      ∀ v, (host.reply c.ident args).answer = .value v → v.Within K)
    {name : String} {args : List Node} {p place : Place}
    (h : ∀ n ∈ args, Safe host rounds K n) :
    Safe host rounds K (.tree .functionCall (.token .identifier name p :: args) place) := by
  intro s hs
  rw [eval]
  refine lands_located_allowed ?_
  rw [expectName, pure_bind, Run.lands_bind]
  refine (lands_evalArgs args hs fun before n after t vs hns hvs ht => ?_).weaken
    fun vs t _ ht => callNamed_lands tame closed ht.1 (fun _ _ => .of_ordinary) name ht.2
  subst hns
  exact (h n (by simp)).enter (.argument hvs) ht

theorem safe_statements {label : Label} {ns : List Node} {place : Place}
    (hl : label = .program ∨ label = .block) (h : ∀ n ∈ ns, Safe host rounds K n) :
    Safe host rounds K (.tree label ns place) := by
  intro s hs
  rw [eval_statements host rounds hl]
  refine lands_located_allowed ?_
  rw [Run.lands_bind]
  refine (lands_evalAll ns hs fun before n after t hns hb ht => ?_).weaken
    fun _ t _ ht => ⟨ht, within_null⟩
  subst hns
  exact ((h n (by simp)).enter (.statement hl hb) ht).weaken fun _ _ _ hu => hu.1

theorem check_lands {w : Keyword} {word : String} {c : Node} {t : State}
    (h : (eval host rounds c).Lands t (fun v u => u.Within K ∧ v.Within K)
      (Allowed host rounds n s)) :
    (check host rounds w word c).Lands t (fun _ u => u.Within K) (Allowed host rounds n s) := by
  rw [check, Run.lands_bind]
  refine h.weaken fun v u _ hu => ?_
  rw [Run.lands_ofExcept]
  exact ⟨fun _ _ => hu.1, fun f hf => .of_ordinary (conditionMet_ordinary hf)⟩

theorem once_lands {b : Node} {t : State}
    (h : (eval host rounds b).Lands t (fun v u => u.Within K ∧ v.Within K)
      (Allowed host rounds n s)) :
    (once host rounds b).Lands t (fun _ u => u.Within K) (Allowed host rounds n s) := by
  rw [once, Run.lands_bind]
  exact h.weaken fun _ _ _ hu => hu.1

/-- What is known of one body, or of one round, is known of all that a conditional does. -/
theorem proceed_lands {w : Keyword} {word : String} {c b : Node} {t : State} (ht : t.Within K)
    (hbody : w.label = .ifBlock →
      (once host rounds b).Lands t (fun _ u => u.Within K) (Allowed host rounds n s))
    (hround : w.label = .whileBlock →
      ∀ u, Run.Rounds (check host rounds w word c) (once host rounds b) t u → u.Within K →
        (once host rounds b).Lands u
          (fun _ v => (check host rounds w word c).Lands v (fun _ v => v.Within K)
            (Allowed host rounds n s))
          (Allowed host rounds n s)) :
    (proceed host rounds w word c b).Lands t (fun _ u => u.Within K)
      (Allowed host rounds n s) := by
  cases w with
  | ifWord => exact hbody rfl
  | unlessWord => exact hbody rfl
  | whileWord => exact Run.lands_repeatWhile rounds ht (hround rfl)
  | untilWord => exact Run.lands_repeatWhile rounds ht (hround rfl)

theorem safe_conditional {w : Keyword} {word : String} {c b : Node} {otherwise : List Node}
    {p place : Place} (single : otherwise.length ≤ 1) (hc : Safe host rounds K c)
    (hb : Safe host rounds K b) (ho : ∀ n ∈ otherwise, Safe host rounds K n) :
    Safe host rounds K
      (.tree w.label (.token w.tokenKind word p :: c :: b :: otherwise) place) := by
  intro s hs
  rw [eval_conditional host rounds w word c b p place single]
  refine lands_located_allowed ?_
  rw [Run.lands_bind]
  refine (check_lands (hc.enter (.condition single) hs)).weaken fun met t hmet ht => ?_
  cases met with
  | true =>
    rw [if_pos rfl, Run.lands_bind]
    refine (proceed_lands ht (fun hw => once_lands (hb.enter (.body single hw hmet) ht))
      fun hw u hu hwithin => ?_).weaken fun _ u _ hu => ⟨hu, within_null⟩
    refine (once_lands (hb.enter (.round single hw hmet hu) hwithin)).weaken fun _ v hv hv' => ?_
    exact check_lands (hc.enter (.again single hw hmet hu hv) hv')
  | false =>
    rw [if_neg (by decide)]
    match otherwise, single, ho with
    | [], _, _ =>
      rw [evalElse]
      exact ⟨ht, within_null⟩
    | [m], _, ho =>
      rw [evalElse]
      exact (ho m (List.mem_singleton_self m)).enter (.otherwise hmet) ht

/-- A node of the right shape is safe. -/
theorem safe_of_shaped (tame : host.Tame K)
    (closed : ∀ c, K c → ∀ args : List Value, (∀ v ∈ args, v.Within K) →
      ∀ v, (host.reply c.ident args).answer = .value v → v.Within K)
    (h : Shaped n) : Safe host rounds K n := by
  induction h with
  | constant kind text p s => exact safe_constant kind text p (.span s)
  | name text p s => exact safe_name text p (.span s)
  | call text p s _ ih => exact safe_call tame closed ih
  | negate s _ ih => exact safe_negate ih
  | binary level p s mem _ _ ihl ihr => exact safe_binary mem ihl ihr
  | assignment text p s _ ih => exact safe_assignment ih
  | conditional w p s _ _ single _ ihc ihb iho => exact safe_conditional single ihc ihb iho
  | elseBlock s _ ih =>
    intro t ht
    rw [eval]
    exact lands_located_allowed (ih.enter .branch ht)
  | block s _ ih => exact safe_statements (.inr rfl) ih

theorem shaped_operands (h : Shaped n) : ∀ m ∈ operands n, Shaped m := by
  cases h with
  | constant kind text p s => exact List.forall_mem_nil _
  | name text p s => exact List.forall_mem_nil _
  | call text p s h => exact h
  | negate s h => exact List.forall_mem_singleton.mpr h
  | binary level p s _ hl hr =>
    rw [operands_binary]
    exact List.forall_mem_cons.mpr ⟨hl, List.forall_mem_singleton.mpr hr⟩
  | assignment text p s h => exact List.forall_mem_singleton.mpr h
  | conditional w p s hc hb _ ho =>
    rw [operands_conditional]
    exact List.forall_mem_cons.mpr ⟨hc, List.forall_mem_cons.mpr ⟨hb, ho⟩⟩
  | elseBlock s h => exact List.forall_mem_singleton.mpr h
  | block s h => exact h

/-! ## Runs -/

theorem Safe.within {v : Value} {t : State} (h : Safe host rounds K n) (hs : s.Within K)
    (hv : eval host rounds n s = (.ok v, t)) : t.Within K :=
  ((Run.lands_of_ok hv).mp (h s hs)).1

theorem check_within {w : Keyword} {word : String} {met : Bool} {t : State}
    (h : Safe host rounds K n) (hs : s.Within K)
    (hc : check host rounds w word n s = (.ok met, t)) : t.Within K :=
  (Run.lands_of_ok hc).mp (check_lands (h s hs))

theorem once_within {t : State} (h : Safe host rounds K n) (hs : s.Within K)
    (hb : once host rounds n s = (.ok (), t)) : t.Within K :=
  (Run.lands_of_ok hb).mp (once_lands (h s hs))

theorem rounds_within {w : Keyword} {word : String} {c b : Node} {t : State}
    (hc : Safe host rounds K c) (hb : Safe host rounds K b) (hs : s.Within K)
    (h : Run.Rounds (check host rounds w word c) (once host rounds b) s t) : t.Within K := by
  induction h with
  | none => exact hs
  | more hbody hcheck _ ih => exact ih (check_within hc (once_within hb hs hbody) hcheck)

/-- A safe node enters its children with the functions it had. -/
theorem within_of_enters {m : Node} {t : State} (h : ∀ k ∈ operands n, Safe host rounds K k)
    (hs : s.Within K) (he : Enters host rounds n s m t) : t.Within K := by
  cases he with
  | @statement label before _ after place _ _ hl hb =>
    rw [operands_statements hl] at h
    have hlands : (evalAll host rounds before).Lands s (fun _ u => u.Within K) fun _ _ => True := by
      refine lands_evalAll before hs ?_
      rintro xs k ys u rfl - hu
      exact (h k (by simp) u hu).mono (fun _ _ _ hv => hv.1) fun _ _ _ _ => trivial
    exact (Run.lands_of_ok hb).mp hlands
  | source => exact hs
  | @argument name before _ after p place _ _ vs hvs =>
    have hlands : (evalArgs host rounds before).Lands s
        (fun vs u => u.Within K ∧ ∀ v ∈ vs, v.Within K) fun _ _ => True := by
      refine lands_evalArgs before hs ?_
      rintro xs k ys u vs rfl - hu
      exact (h k (by simp [operands]) u hu).mono (fun _ _ _ hv => hv) fun _ _ _ _ => trivial
    exact ((Run.lands_of_ok hvs).mp hlands).1
  | operand => exact hs
  | left => exact hs
  | right ha =>
    rw [operands_binary] at h
    exact (h _ (List.mem_cons_self ..)).within hs ha
  | condition _ => exact hs
  | body _ _ hmet | otherwise hmet =>
    rw [operands_conditional] at h
    exact check_within (h _ (List.mem_cons_self ..)) hs hmet
  | round _ _ hmet hu =>
    rw [operands_conditional] at h
    have hc := h _ (List.mem_cons_self ..)
    exact rounds_within hc (h _ (by simp)) (check_within hc hs hmet) hu
  | again _ _ hmet hu hv =>
    rw [operands_conditional] at h
    have hc := h _ (List.mem_cons_self ..)
    have hb := h _ (List.mem_cons_of_mem _ (List.mem_cons_self ..))
    exact once_within hb (rounds_within hc hb (check_within hc hs hmet) hu) hv
  | branch => exact hs

/-- From a safe node over nodes of the right shape, evaluation comes to safe nodes only. -/
theorem safe_of_reaches {m : Node} {t : State} (hall : ∀ k, Shaped k → Safe host rounds K k)
    (h : Reaches host rounds n s m t) (hn : Safe host rounds K n)
    (hkids : ∀ k ∈ operands n, Shaped k) (hs : s.Within K) :
    Safe host rounds K m ∧ t.Within K := by
  induction h with
  | here => exact ⟨hn, hs⟩
  | into he _ ih =>
    have hm := hkids _ (mem_operands_of_enters host rounds he)
    exact ih (hall _ hm) (shaped_operands hm)
      (within_of_enters (fun k hk => hall k (hkids k hk)) hs he)

end

/-- What a program comes by is within its reach. -/
theorem available_closed {host : Host} {env : Environment} (c : Callable)
    (hc : Available host env c) (args : List Value)
    (hargs : ∀ v ∈ args, v.Within (Available host env)) (v : Value)
    (h : (host.reply c.ident args).answer = .value v) : v.Within (Available host env) := by
  rintro d rfl
  exact .answered hc (fun e he => hargs _ he e rfl) h

/-- Before its first step, a program has the functions that its environment binds. -/
theorem within_start (host : Host) (env : Environment) (log : List Event) :
    State.Within (Available host env) ⟨env, log⟩ := by
  rintro name v hv c rfl
  exact .bound hv

theorem senseless_fault {host : Host} {rounds : Nat} {n : Node} {s t : State} {f : Fault}
    (h : Senseless host rounds n s f t) :
    (∀ l, f ≠ .unknownNode l) ∧ ∀ k raw, f ≠ .unsupportedLiteral k raw := by
  cases h with
  | @intro level =>
    constructor
    · intro l h
      cases level <;> cases h
    · intro k raw h
      cases level <;> cases h

/-- Whatever a source that is read brings to evaluation, in an environment whose functions fail with
ordinary faults only, does not fail for its shape or for a label or a kind of literal without a
meaning; and if it fails for want of something, it is because of an operator whose two operands
have just been given values. -/
theorem fault_of_reaches {source : String} {program : Source.Program}
    (hread : Source.read source = .ok program) {host : Host} {env : Environment}
    (tame : host.Tame (Available host env)) {rounds : Nat} {log : List Event} {n : Node} {s : State}
    (hreach : Reaches host rounds program.toNode ⟨env, log⟩ n s) {f : Failure} {t : State}
    (hfails : eval host rounds n s = (.error (.failure f), t)) :
    f.fault.faultClass ≠ .shape ∧ (∀ l, f.fault ≠ .unknownNode l) ∧
      (∀ k raw, f.fault ≠ .unsupportedLiteral k raw) ∧
      (f.fault.faultClass = .unsupported →
        ∃ m u, Reaches host rounds n s m u ∧ Senseless host rounds m u f.fault t) := by
  have hkids := Source.shaped_of_read hread
  have hall : ∀ k, Shaped k → Safe host rounds (Available host env) k := fun k hk =>
    safe_of_shaped tame available_closed hk
  have hroot : Safe host rounds (Available host env) program.toNode :=
    safe_statements (.inl rfl) fun k hk => hall k (hkids k hk)
  have henv : State.Within (Available host env) ⟨env, log⟩ := by
    rintro name v hv c rfl
    exact .bound hv
  obtain ⟨hn, hs⟩ := safe_of_reaches hall hreach hroot hkids henv
  obtain ⟨hshape, hunsupported⟩ := (Run.lands_of_failure hfails).mp (hn s hs)
  refine ⟨hshape, fun l hl => ?_, fun k raw hk => ?_, hunsupported⟩
  · obtain ⟨m, u, -, hm⟩ := hunsupported (by rw [hl]; rfl)
    exact (senseless_fault hm).1 l hl
  · obtain ⟨m, u, -, hm⟩ := hunsupported (by rw [hk]; rfl)
    exact (senseless_fault hm).2 k raw hk

/-- The standard functions fail with ordinary faults only. -/
theorem standard_tame (K : Callable → Prop) : Host.standard.Tame K := by
  intro c _ args f h
  have hconvert : ∀ {v : Value} {g}, v.convert = .error g →
      Host.inconvertible g = .fails f → f.Ordinary := by
    intro v g hg hf
    rcases fault_of_convert hg with rfl | hclass
    · cases hf
    · rw [Host.inconvertible_of_class hclass] at hf
      cases hf
      exact Fault.ordinary_of_class .type hclass (by decide)
  match hc : c.ident with
  | 0 =>
    have hpow : (Host.pow args).answer = .fails f := by
      rw [hc] at h
      exact h
    unfold Host.pow at hpow
    split at hpow
    · split at hpow
      · cases hpow
      next hb => exact hconvert hb hpow
      next he _ => exact hconvert he hpow
    · cases hpow
      exact Fault.ordinary_of_class .foreign rfl (by decide)
  | 1 =>
    rw [hc] at h
    exact absurd h (Host.printLine_fails [] args (.value .null) f fun h => by cases h)
  | k + 2 =>
    rw [hc] at h
    cases h

/-- A remainder asks for an operator without a meaning, after its operands. -/
theorem fault_of_reaches_remainder :
    ∃ program f t,
      Source.read "Print(1) x = 1 % 2" = .ok program ∧
      eval .standard 1 program.toNode ⟨Registry.standard.environment, []⟩ =
        (.error (.failure f), t) ∧
      f.fault.faultClass = .unsupported ∧
      ∃ m u, Reaches .standard 1 program.toNode ⟨Registry.standard.environment, []⟩ m u ∧
        Senseless .standard 1 m u f.fault t := by
  have hrun : (Source.read "Print(1) x = 1 % 2").toOption.bind (fun program =>
      (eval .standard 1 program.toNode).faultClass? ⟨Registry.standard.environment, []⟩) =
        some .unsupported := by
    decide +kernel
  cases hread : Source.read "Print(1) x = 1 % 2" with
  | error e =>
    rw [hread] at hrun
    cases hrun
  | ok program =>
    rw [hread] at hrun
    obtain ⟨f, t, hfails, hclass⟩ := Run.failure_of_faultClass? hrun
    have hfault := fault_of_reaches hread (standard_tame _) .here hfails
    exact ⟨program, f, t, rfl, hfails, hclass, hfault.2.2.2 hclass⟩

end Scriptlet
