import Scriptlet.Proofs.Expressions
import Scriptlet.Proofs.Soundness
/-!
# Failures by kinds

What an expression fails with does not depend on values, only on kinds. The kind that an operator
makes of two kinds, or the fault that it has with them, can be listed (`operatorKind`,
`negationKind`), and values follow the list: only a division by zero is seen in a value
(`kind_applyOperator`). So two runs of an expression, in environments that bind the same names to
values of the same kinds, go side by side until one of them has a fault of arithmetic. Main
statement: `resembles_of_kinds`, and from it `result_by_kinds`.
-/

namespace Scriptlet

open Source (Level)

/-! ## Operators on kinds -/

def Kind.isNumber : Kind → Bool
  | int | float => true
  | _ => false

def arithmeticKind (operator : String) (k l : Kind) : Except Fault Kind :=
  match ArithOp.ofText? operator with
  | none => .error (.unknownArithmetic operator)
  | some op =>
    if k = .int ∧ l = .int then .ok .int
    else if k.isNumber ∧ l.isNumber then .ok .float
    else if op = .add ∧ (k = .string ∨ l = .string) then .ok .string
    else .error (.operands operator k l)

def comparisonKind (operator : String) (k l : Kind) : Except Fault Kind :=
  match Comparator.ofText? operator with
  | none => .error (.unknownComparator operator)
  | some _ =>
    if k.isNumber ∧ l.isNumber then .ok .bool else .error (.operands operator k l)

def operatorKind (level : Level) (operator : String) (k l : Kind) : Except Fault Kind :=
  match level with
  | .comparison => comparisonKind operator k l
  | .sum | .product => arithmeticKind operator k l

def negationKind (k : Kind) : Except Fault Kind :=
  if k.isNumber then .ok k else .error (.notNegatable k)

/-- A value that is no whole number, or one that has a float near to it. All words are such. -/
def Value.Near (v : Value) : Prop := ∀ n, v = .int n → n.natAbs < floatLimit

section

variable {a b v : Value}

theorem near_of_range (h : ∀ n, v = .int n → InRange n) : v.Near := by
  intro n hn
  have hlimit : 0x8000000000000000 < floatLimit := by decide +kernel
  exact Nat.lt_of_le_of_lt (natAbs_of_range (h n hn)) hlimit

theorem write_of_near (h : v.Near) : v.write = .ok v.display := by
  cases v with
  | int n =>
    have hlimit : floatLimit < Nat.pow 10 Decimal.digitLimit := by decide +kernel
    rw [Value.write, if_pos (Nat.lt_trans (h n rfl) hlimit)]
  | null | float | string | bool | callable => rfl

theorem asFloat?_of_near (h : v.Near) (hv : v.kind.isNumber = true) :
    ∃ x, v.asFloat? = some (.ok x) := by
  cases v with
  | int n => exact ⟨_, congrArg some (if_pos (h n rfl))⟩
  | float x => exact ⟨x, rfl⟩
  | null | string | bool | callable => cases hv

theorem asFloat?_of_not_number (hv : v.kind.isNumber = false) : v.asFloat? = none := by
  cases v with
  | int | float => cases hv
  | null | string | bool | callable => rfl

theorem asFloat?_of_not_both (h : ¬(a.kind.isNumber = true ∧ b.kind.isNumber = true)) :
    a.asFloat? = none ∨ b.asFloat? = none := by
  by_cases ha : a.kind.isNumber = true
  · exact .inr (asFloat?_of_not_number (Bool.eq_false_iff.mpr fun hb => h ⟨ha, hb⟩))
  · exact .inl (asFloat?_of_not_number (Bool.eq_false_iff.mpr ha))

theorem int_of_kind (h : v.kind = .int) : ∃ n, v = .int n := by
  cases v with
  | int n => exact ⟨n, rfl⟩
  | null | float | string | bool | callable => cases h

theorem onInts_cases (o : ArithOp) (m n : Int) :
    o.onInts m n = .error .divisionByZero ∨ ∃ r, o.onInts m n = .ok r := by
  cases o with
  | add | subtract | multiply => exact .inr ⟨_, rfl⟩
  | divide =>
    by_cases hn : n = 0
    · exact .inl (if_pos hn)
    · exact .inr ⟨_, if_neg hn⟩

/-- Where one of two values is no number, it matters only whether a text takes part in a sum. -/
theorem applyArithmetic_of_not_numbers (ha : a.Near) (hb : b.Near) {op : String} {o : ArithOp}
    (ho : ArithOp.ofText? op = some o)
    (h : ¬(a.kind.isNumber = true ∧ b.kind.isNumber = true)) :
    applyArithmetic op a b =
      if o = .add ∧ (a.kind = .string ∨ b.kind = .string) then
        .ok (.string (a.display ++ b.display))
      else .error (.operands op a.kind b.kind) := by
  rw [applyArithmetic, ho]
  dsimp only
  split
  next => exact absurd ⟨rfl, rfl⟩ h
  next =>
    split
    next hx hy =>
      rcases asFloat?_of_not_both h with hnone | hnone
      · cases hx.symm.trans hnone
      · cases hy.symm.trans hnone
    next =>
      rw [write_of_near ha, write_of_near hb]
      rfl

theorem kind_applyArithmetic (ha : a.Near) (hb : b.Near) (op : String) :
    applyArithmetic op a b = .error .divisionByZero ∨
      (applyArithmetic op a b).map Value.kind = arithmeticKind op a.kind b.kind := by
  cases ho : ArithOp.ofText? op with
  | none =>
    rw [applyArithmetic, arithmeticKind, ho]
    exact .inr rfl
  | some o =>
    by_cases hints : a.kind = .int ∧ b.kind = .int
    · rw [applyArithmetic, arithmeticKind, ho]
      obtain ⟨m, rfl⟩ := int_of_kind hints.1
      obtain ⟨n, rfl⟩ := int_of_kind hints.2
      rcases onInts_cases o m n with hr | ⟨r, hr⟩
      · exact .inl (congrArg (Except.map Value.int) hr)
      · exact .inr (congrArg (fun x => (Except.map Value.int x).map Value.kind) hr)
    right
    by_cases hnumbers : a.kind.isNumber = true ∧ b.kind.isNumber = true
    · obtain ⟨x, hx⟩ := asFloat?_of_near ha hnumbers.1
      obtain ⟨y, hy⟩ := asFloat?_of_near hb hnumbers.2
      rw [applyArithmetic, arithmeticKind, ho]
      dsimp only
      rw [if_neg hints, if_pos hnumbers]
      split
      next => exact absurd ⟨rfl, rfl⟩ hints
      next =>
        rw [hx, hy]
        rfl
    · rw [applyArithmetic_of_not_numbers ha hb ho hnumbers, arithmeticKind, ho]
      dsimp only
      rw [if_neg hints, if_neg hnumbers]
      split <;> rfl

theorem kind_applyComparison (ha : a.Near) (hb : b.Near) (op : String) :
    ((applyComparison op a b).map Value.bool).map Value.kind =
      comparisonKind op a.kind b.kind := by
  unfold applyComparison comparisonKind
  cases Comparator.ofText? op with
  | none => rfl
  | some o =>
    dsimp only
    split
    next => rfl
    next =>
      by_cases hnumbers : a.kind.isNumber ∧ b.kind.isNumber
      · obtain ⟨x, hx⟩ := asFloat?_of_near ha hnumbers.1
        obtain ⟨y, hy⟩ := asFloat?_of_near hb hnumbers.2
        rw [if_pos hnumbers, hx, hy]
        rfl
      · rw [if_neg hnumbers]
        split
        next hx hy =>
          rcases asFloat?_of_not_both hnumbers with h | h
          · cases hx.symm.trans h
          · cases hy.symm.trans h
        next => rfl

/-- An operator has a value of the kind that is listed for the kinds of its operands, or the fault
that is, unless it divides by zero. -/
theorem kind_applyOperator (ha : a.Near) (hb : b.Near) (level : Level) (op : String) :
    applyOperator level op a b = .error .divisionByZero ∨
      (applyOperator level op a b).map Value.kind = operatorKind level op a.kind b.kind := by
  cases level with
  | comparison => exact .inr (kind_applyComparison ha hb op)
  | sum | product => exact kind_applyArithmetic ha hb op

theorem kind_negate (v : Value) : (negate v).map Value.kind = negationKind v.kind := by
  cases v <;> rfl

theorem near_of_applyOperator {level : Level} {op : String}
    (h : applyOperator level op a b = .ok v) : v.Near := by
  have hsound : v.Sound fun _ => True := sound_of_applyOperator h
  exact near_of_range hsound.word

theorem near_of_negate (h : negate a = .ok v) : v.Near := by
  have hsound : v.Sound fun _ => True := sound_of_negate h
  exact near_of_range hsound.word

theorem near_of_literalValue {kind : TokenKind} {raw : String} (h : literalValue kind raw = .ok v) :
    v.Near :=
  near_of_range fun _ hn => inRange_of_literalValue (hn ▸ h)

end

/-! ## Runs side by side -/

structure Value.Similar (v v' : Value) : Prop where
  kind : v.kind = v'.kind
  near : v.Near
  near' : v'.Near

/-- Two runs, each in its own environment, leave no trace, and come to values of one kind or to the
same failure, unless one of them has a fault of arithmetic. -/
inductive Run.Resembles (env env' : Environment) (r r' : Run Value) : Prop where
  | left {f : Failure} (hf : f.fault.faultClass = .arithmetic)
      (h : r.Comes env (.error (.failure f)) [])
  | right {f : Failure} (hf : f.fault.faultClass = .arithmetic)
      (h : r'.Comes env' (.error (.failure f)) [])
  | values {v v' : Value} (hv : v.Similar v') (h : r.Comes env (.ok v) [])
      (h' : r'.Comes env' (.ok v') [])
  | failures {f : Failure} (h : r.Comes env (.error (.failure f)) [])
      (h' : r'.Comes env' (.error (.failure f)) [])

namespace Run

variable {env env' : Environment} {r r' : Run Value}

theorem Resembles.located (h : Resembles env env' r r') (place : Place) :
    Resembles env env' (located place r) (located place r') := by
  have hclass (f : Failure) : (f.leaving place).fault.faultClass = f.fault.faultClass := by
    rw [fault_leaving]
  cases h with
  | left hf h => exact .left ((hclass _).trans hf) (h.located place)
  | right hf h => exact .right ((hclass _).trans hf) (h.located place)
  | values hv h h' => exact .values hv (h.located place) (h'.located place)
  | failures h h' => exact .failures (h.located place) (h'.located place)

theorem Resembles.bind {k k' : Value → Run Value} (h : Resembles env env' r r')
    (hk : ∀ v v', v.Similar v' → Resembles env env' (k v) (k' v')) :
    Resembles env env' (r >>= k) (r' >>= k') := by
  cases h with
  | left hf h => exact .left hf (h.bind_error k)
  | right hf h => exact .right hf (h.bind_error k')
  | failures h h' => exact .failures (h.bind_error k) (h'.bind_error k')
  | values hv h h' =>
    cases hk _ _ hv with
    | left hf hr => exact .left hf (h.bind_ok hr)
    | right hf hr => exact .right hf (h'.bind_ok hr)
    | values hw hr hr' => exact .values hw (h.bind_ok hr) (h'.bind_ok hr')
    | failures hr hr' => exact .failures (h.bind_ok hr) (h'.bind_ok hr')

theorem resembles_fail (f : Fault) : Resembles env env' (fail f) (fail f) :=
  .failures (comes_fail f) (comes_fail f)

/-- Results that follow one list of kinds. -/
theorem resembles_ofExcept {x x' : Except Fault Value} {y : Except Fault Kind}
    (hx : x = .error .divisionByZero ∨ x.map Value.kind = y)
    (hx' : x' = .error .divisionByZero ∨ x'.map Value.kind = y)
    (near : ∀ v, x = .ok v → v.Near) (near' : ∀ v, x' = .ok v → v.Near) :
    Resembles env env' (ofExcept x) (ofExcept x') := by
  rcases hx with rfl | rfl
  · exact .left rfl (comes_ofExcept _)
  rcases hx' with rfl | hx'
  · exact .right rfl (comes_ofExcept _)
  cases x with
  | error f =>
    cases x' with
    | error g =>
      cases hx'
      exact resembles_fail f
    | ok v' => cases hx'
  | ok v =>
    cases x' with
    | error g => cases hx'
    | ok v' =>
      have hv : v.Similar v' := ⟨(Except.ok.inj hx').symm, near v rfl, near' v' rfl⟩
      exact .values hv (comes_pure v) (comes_pure v')

end Run

section

variable {env env' : Environment}
  (kinds : ∀ name, (env.get? name).map Value.kind = (env'.get? name).map Value.kind)
  (near : ∀ name v, env.get? name = some v → v.Near)
  (near' : ∀ name v, env'.get? name = some v → v.Near)

include kinds near near'

theorem resembles_lookUp (name : String) :
    Run.Resembles env env' (lookUp name) (lookUp name) := by
  have hname := kinds name
  cases h : env.get? name with
  | none =>
    rw [h] at hname
    have h' : env'.get? name = none := Option.map_eq_none_iff.mp hname.symm
    exact .failures (comes_lookUp_none h) (comes_lookUp_none h')
  | some v =>
    rw [h] at hname
    obtain ⟨v', h', hkind⟩ := Option.map_eq_some_iff.mp hname.symm
    exact .values ⟨hkind.symm, near name v h, near' name v' h'⟩ (comes_lookUp_some h)
      (comes_lookUp_some h')

/-- An expression without calls, in environments that bind the same names to values of the same
kinds. -/
theorem resembles_of_kinds {n : Node} (hn : n.CallFree) (host : Host) (rounds : Nat) :
    Run.Resembles env env' (eval host rounds n) (eval host rounds n) := by
  refine callFree_induction ?misfit ?name ?literal ?negate ?binary hn
  case misfit =>
    intro n f heval
    rw [heval]
    exact (Run.resembles_fail f).located _
  case name =>
    intro n text heval
    rw [heval]
    exact (resembles_lookUp kinds near near' text).located _
  case literal =>
    intro n kind text heval
    rw [heval]
    exact (Run.resembles_ofExcept (.inr rfl) (.inr rfl) (fun v => near_of_literalValue)
      fun v => near_of_literalValue).located _
  case negate =>
    intro operand place ih
    rw [eval]
    refine (ih.bind fun v v' hv => ?_).located place
    exact Run.resembles_ofExcept (.inr (kind_negate v)) (.inr (hv.kind ▸ kind_negate v'))
      (fun w => near_of_negate) fun w => near_of_negate
  case binary =>
    intro level lhs rhs op p place ihl ihr
    rw [eval_binary]
    refine (ihl.bind fun a a' ha => ihr.bind fun b b' hb => ?_).located place
    have hresult := kind_applyOperator ha.near' hb.near' level op
    rw [← ha.kind, ← hb.kind] at hresult
    exact Run.resembles_ofExcept (kind_applyOperator ha.near hb.near level op) hresult
      (fun w => near_of_applyOperator) fun w => near_of_applyOperator

end

/-- The results of a tree in two environments are values of one kind, or they are one failure, with
its fault and its location, or one of them has a fault of arithmetic. -/
inductive Setting.Alike (setting : Setting) (env env' : Environment) (n : Node) : Prop where
  | left {f : Failure} (hf : f.fault.faultClass = .arithmetic)
      (h : (setting.evalNode env n).result = .error (.failure f))
  | right {f : Failure} (hf : f.fault.faultClass = .arithmetic)
      (h : (setting.evalNode env' n).result = .error (.failure f))
  | values {v v' : Value} (kind : v.kind = v'.kind) (h : (setting.evalNode env n).result = .ok v)
      (h' : (setting.evalNode env' n).result = .ok v')
  | failures {f : Failure} (h : (setting.evalNode env n).result = .error (.failure f))
      (h' : (setting.evalNode env' n).result = .error (.failure f))

/-- Evaluate an expression without calls in two environments that bind the same names to values of
the same kinds. Unless one of the two runs has a fault of arithmetic, both give values of one kind,
or both fail with the same fault at the same location. -/
theorem result_by_kinds (setting : Setting) {env env' : Environment}
    (kinds : ∀ name, (env.get? name).map Value.kind = (env'.get? name).map Value.kind)
    (near : ∀ name v, env.get? name = some v → v.Near)
    (near' : ∀ name v, env'.get? name = some v → v.Near) {n : Node} (hn : n.CallFree) :
    setting.Alike env env' n := by
  cases resembles_of_kinds kinds near near' hn setting.host setting.rounds with
  | left hf h => exact .left hf (congrArg Outcome.result (evalNode_of_comes h))
  | right hf h => exact .right hf (congrArg Outcome.result (evalNode_of_comes h))
  | values hv h h' =>
    exact .values hv.kind (congrArg Outcome.result (evalNode_of_comes h))
      (congrArg Outcome.result (evalNode_of_comes h'))
  | failures h h' =>
    exact .failures (congrArg Outcome.result (evalNode_of_comes h))
      (congrArg Outcome.result (evalNode_of_comes h'))

/-- A text cannot be taken from a whole number, whichever number that is. -/
theorem result_by_kinds_difference :
    let env := Environment.empty.define "x" (.int 1)
    let env' := Environment.empty.define "x" (.int intMin)
    let n : Node := .tree .additive [.token .identifier "x" .unknown, .token .addOp "-" .unknown,
      .token .string "'a'" .unknown] (.given (some 3) (some 4))
    (∀ name, (env.get? name).map Value.kind = (env'.get? name).map Value.kind) ∧
      (∀ name v, env.get? name = some v → v.Near) ∧
      (∀ name v, env'.get? name = some v → v.Near) ∧ n.CallFree ∧
      (Setting.mk .standard 1).Alike env env' n := by
  intro env env' n
  have hget (k : Int) (name : String) : (Environment.empty.define "x" (.int k)).get? name =
      if name = "x" then some (.int k) else none := Environment.get?_define ..
  have hkinds (name : String) :
      (env.get? name).map Value.kind = (env'.get? name).map Value.kind := by
    simp only [env, env', hget]
    split <;> rfl
  have hnear {k : Int} (hk : InRange k) (name : String) (v : Value)
      (h : (Environment.empty.define "x" (.int k)).get? name = some v) : v.Near := by
    rw [hget] at h
    split at h <;> cases h
    refine near_of_range fun m hm => ?_
    cases hm
    exact hk
  have hfree : n.CallFree :=
    .tree ⟨rfl, nofun⟩ (List.forall_mem_cons.mpr ⟨.token, List.forall_mem_singleton.mpr .token⟩)
  exact ⟨hkinds, hnear (by decide), hnear (by decide), hfree,
    result_by_kinds _ hkinds (hnear (by decide)) (hnear (by decide)) hfree⟩

end Scriptlet
