import Scriptlet.Proofs.Bindings
import Scriptlet.Proofs.Expressions
/-!
# Substitution

To put a tree in the place of every reference to a name, in an expression, comes to the same as to
bind the name to the value of that tree. Both runs give the same value, or the same failure, and the
same is printed and the same functions are called with the same arguments in both. Main statements:
`matches_replaced`, and from it `replaced_comes`.
-/

namespace Scriptlet

open Source (Level)

mutual

/-- The tree with another one in the place of every reference to a name. Callees, operators and
literals are no references. -/
def Node.replaced (n : Node) (t : String) (e : Node) : Node :=
  match n with
  | .token .identifier name place => if name = t then e else .token .identifier name place
  | .tree .identifier [.token .identifier name p] place =>
    if name = t then e else .tree .identifier [.token .identifier name p] place
  | .tree .functionCall (callee :: args) place =>
    .tree .functionCall (callee :: replacedIn args t e) place
  | .tree .negate [operand] place => .tree .negate [operand.replaced t e] place
  | .tree .comparison [lhs, op, rhs] place =>
    .tree .comparison [lhs.replaced t e, op, rhs.replaced t e] place
  | .tree .additive [lhs, op, rhs] place =>
    .tree .additive [lhs.replaced t e, op, rhs.replaced t e] place
  | .tree .multiplicative [lhs, op, rhs] place =>
    .tree .multiplicative [lhs.replaced t e, op, rhs.replaced t e] place
  | n => n

def replacedIn (ns : List Node) (t : String) (e : Node) : List Node :=
  match ns with
  | [] => []
  | n :: ns => n.replaced t e :: replacedIn ns t e

end

/-! ## Runs that match -/

namespace Run

/-- Two runs, each in its own environment, come to the same and add the same events. -/
def Matches {α : Type} (env env' : Environment) (r r' : Run α) : Prop :=
  ∃ x new, r.Comes env x new ∧ r'.Comes env' x new

variable {α β : Type} {env env' : Environment} {r r' : Run α}

theorem matches_pure (a : α) : Matches env env' (pure a) (pure a) :=
  ⟨_, _, comes_pure a, comes_pure a⟩

theorem matches_fail (f : Fault) : Matches env env' (fail f : Run α) (fail f) :=
  ⟨_, _, comes_fail f, comes_fail f⟩

theorem matches_ofExcept (x : Except Fault α) : Matches env env' (ofExcept x) (ofExcept x) :=
  ⟨_, _, comes_ofExcept x, comes_ofExcept x⟩

theorem matches_record (e : Event) : Matches env env' (record e) (record e) :=
  ⟨.ok (), [e], fun _ => rfl, fun _ => rfl⟩

theorem matches_print (text : String) : Matches env env' (print text) (print text) := by
  unfold print
  split
  · exact matches_pure ()
  · exact matches_record _

theorem Matches.bind {k k' : α → Run β} (h : Matches env env' r r')
    (hk : ∀ a, Matches env env' (k a) (k' a)) : Matches env env' (r >>= k) (r' >>= k') := by
  obtain ⟨stop | a, new, hr, hr'⟩ := h
  · exact ⟨_, new, hr.bind_error k, hr'.bind_error k'⟩
  · obtain ⟨y, more, hy, hy'⟩ := hk a
    exact ⟨y, more ++ new, hr.bind_ok hy, hr'.bind_ok hy'⟩

theorem Matches.located (h : Matches env env' r r') (place : Place) :
    Matches env env' (located place r) (located place r') := by
  obtain ⟨x, new, hr, hr'⟩ := h
  exact ⟨_, new, hr.located place, hr'.located place⟩

theorem matches_read {f : Environment → Run α} (h : Matches env env' (f env) (f env')) :
    Matches env env' (environment >>= f) (environment >>= f) := by
  obtain ⟨x, new, hx, hx'⟩ := h
  exact ⟨x, new, comes_read hx, comes_read hx'⟩

end Run

section

variable {host : Host} {rounds : Nat} {env env' : Environment} {name : String}

theorem matches_lookUp (hname : env'.get? name = env.get? name) :
    Run.Matches env env' (lookUp name) (lookUp name) := by
  refine Run.matches_read ?_
  rw [hname]
  cases env.get? name with
  | none => exact Run.matches_fail _
  | some v => exact Run.matches_pure v

theorem matches_resolveCallee (hname : env'.get? name = env.get? name) :
    Run.Matches env env' (resolveCallee name) (resolveCallee name) := by
  refine Run.matches_read ?_
  rw [hname]
  rcases env.get? name with _ | v
  · exact Run.matches_fail _
  · cases v with
    | callable c => exact Run.matches_pure c
    | _ => exact Run.matches_fail _

theorem matches_invoke (c : Callable) (args : List Value) :
    Run.Matches env env' (invoke host c args) (invoke host c args) := by
  have hout : Run.Matches env env' (carryOut host c args) (carryOut host c args) := by
    refine (Run.matches_record _).bind fun _ => (Run.matches_print _).bind fun _ => ?_
    cases (host.reply c.ident args).answer with
    | value v => exact Run.matches_pure v
    | nothing => exact Run.matches_pure Value.null
    | foreign | incomputable | rejected | fails => exact Run.matches_fail _
  rw [invoke_eq]
  split
  · split
    · exact Run.matches_fail _
    · exact hout
  · exact hout

theorem matches_callNamed (hname : env'.get? name = env.get? name) (args : List Value) :
    Run.Matches env env' (callNamed host name args) (callNamed host name args) :=
  (matches_resolveCallee hname).bind fun c =>
    (Run.matches_record _).bind fun _ => matches_invoke c args

/-- An operator with other operands, each of which matches what it stands for. -/
theorem matches_binary (level : Level) {f : Node → Node} {lhs op rhs : Node} {place : Place}
    (h : ∀ m ∈ [lhs, rhs], Run.Matches env env' (eval host rounds (f m)) (eval host rounds m)) :
    Run.Matches env env' (eval host rounds (.tree level.label [f lhs, op, f rhs] place))
      (eval host rounds (.tree level.label [lhs, op, rhs] place)) := by
  simp only [List.forall_mem_cons] at h
  obtain ⟨hl, hr, -⟩ := h
  rcases expectToken_cases op [level.tokenKind] with ⟨kind, text, p, hk, rfl⟩ | ⟨-, hop⟩
  · obtain rfl := List.mem_singleton.mp hk
    rw [eval_binary, eval_binary]
    exact (hl.bind fun a => hr.bind fun b => Run.matches_ofExcept _).located place
  · rw [eval_binary_of_misfit hop, eval_binary_of_misfit hop]
    exact (Run.matches_fail _).located place

end

/-! ## Expressions -/

section

variable {host : Host} {rounds : Nat} {env : Environment} {t : String} {e : Node} {v : Value}
  (he : (eval host rounds e).Comes env (.ok v) [])

theorem matches_replacedIn {ns : List Node}
    (h : ∀ n ∈ ns, Run.Matches env (env.define t v) (eval host rounds (n.replaced t e))
      (eval host rounds n)) :
    Run.Matches env (env.define t v) (evalArgs host rounds (replacedIn ns t e))
      (evalArgs host rounds ns) := by
  induction ns with
  | nil =>
    rw [replacedIn, evalArgs]
    exact Run.matches_pure []
  | cons n ns ih =>
    obtain ⟨hn, hns⟩ := List.forall_mem_cons.mp h
    rw [replacedIn, evalArgs, evalArgs]
    exact hn.bind fun w => (ih hns).bind fun ws => Run.matches_pure (w :: ws)

include he

/-- A reference, be it a token or a tree. -/
theorem matches_reference {n : Node} {name : String} {place : Place}
    (hn : eval host rounds n = Run.located place (lookUp name)) :
    Run.Matches env (env.define t v) (eval host rounds (if name = t then e else n))
      (eval host rounds n) := by
  rw [hn]
  by_cases h : name = t
  · subst h
    rw [if_pos rfl]
    have hlookUp := comes_lookUp_some (Environment.get?_define_self env name v)
    exact ⟨_, _, he, hlookUp.located place⟩
  · rw [if_neg h, hn]
    exact (matches_lookUp (Environment.get?_define_of_ne env v h)).located place

theorem matches_replaced {n : Node} (hn : n.IsExpression) (ht : ¬ n.Mentions .callee t) :
    Run.Matches env (env.define t v) (eval host rounds (n.replaced t e)) (eval host rounds n) := by
  induction n using operands_induction with
  | h n ih =>
    have hchild : ∀ m ∈ operands n, Run.Matches env (env.define t v)
        (eval host rounds (m.replaced t e)) (eval host rounds m) :=
      fun m hm => ih m hm (hn.operands m hm) fun hm' => ht (.inside hm hm')
    rw [Node.replaced.eq_def]
    split
    next name place => exact matches_reference he (by rw [eval]; rfl)
    next name p place => exact matches_reference he (by rw [eval, expectName]; rfl)
    next callee args place =>
      rcases expectName_cases callee .calleeName with ⟨name, p, rfl⟩ | ⟨-, h⟩
      · have hname : name ≠ t := by
          rintro rfl
          exact ht .callee
        rw [eval, eval, expectName, pure_bind, pure_bind]
        exact ((matches_replacedIn hchild).bind fun vs => matches_callNamed
          (Environment.get?_define_of_ne env v hname) vs).located place
      · rw [eval_call_of_misfit h, eval_call_of_misfit h]
        exact (Run.matches_fail _).located place
    next operand place =>
      rw [eval, eval]
      have hoperand := hchild _ (List.mem_singleton_self _)
      exact (hoperand.bind fun w => Run.matches_ofExcept _).located place
    next => exact matches_binary .comparison hchild
    next => exact matches_binary .sum hchild
    next => exact matches_binary .product hchild
    next htoken htree hcall hnegate hcomparison hsum hproduct =>
      -- Neither a reference nor a tree with operands: both runs evaluate the same node.
      cases form n with
      | misfit _ heval =>
        rw [heval]
        exact (Run.matches_fail _).located _
      | name text hform _ =>
        rcases hform with rfl | ⟨place, rfl⟩
        · exact (htoken _ _ rfl).elim
        · exact (htree _ _ _ rfl).elim
      | literal _ heval =>
        rw [heval]
        exact (Run.matches_ofExcept _).located _
      | statements hl kids place => rcases hl with rfl | rfl <;> cases hn.label
      | assignment | elseBlock => cases hn.label
      | conditional w => cases hn.label.symm.trans (isStatement_keyword w)
      | call => exact (hcall _ _ _ rfl).elim
      | negate => exact (hnegate _ _ rfl).elim
      | binary level =>
        cases level with
        | comparison => exact (hcomparison _ _ _ _ rfl).elim
        | sum => exact (hsum _ _ _ _ rfl).elim
        | product => exact (hproduct _ _ _ _ rfl).elim

end

/-- Let an expression without calls have a value in an environment, and put it in the place of every
reference to a name, in any expression in which this name is no callee. That comes to the same, in
this environment, as the expression itself does with the name bound to the value: the same value, or
the same failure at the same location. Both leave their environments as they are and add the same
events, so that they print the same and enter the same functions with the same arguments. So does an
assignment of the first expression to the name with the other one behind it. -/
theorem replaced_comes {setting : Setting} {env : Environment} {e : Node} {v : Value}
    (he : e.CallFree) (hv : (setting.evalNode env e).result = .ok v) {n : Node} {t : String}
    (hn : n.IsExpression) (ht : ¬ n.Mentions .callee t) :
    ∃ x new,
      (eval setting.host setting.rounds (n.replaced t e)).Comes env x new ∧
      (eval setting.host setting.rounds n).Comes (env.define t v) x new ∧
      ∀ p place log,
        (do
          let _ ← eval setting.host setting.rounds
            (.tree .assignment [.token .identifier t p, e] place)
          eval setting.host setting.rounds n) ⟨env, log⟩ =
          (x, ⟨env.define t v, new ++ .bind t v :: log⟩) := by
  have hcomes : (eval setting.host setting.rounds e).Comes env (.ok v) [] := by
    obtain ⟨y, hy⟩ := silent_of_callFree he setting.host setting.rounds env
    rw [evalNode_of_comes hy] at hv
    cases y with
    | error stop => cases hv
    | ok w =>
      cases hv
      exact hy
  obtain ⟨x, new, hx, hx'⟩ := matches_replaced hcomes hn ht
  refine ⟨x, new, hx, hx', fun p place log => ?_⟩
  rw [Run.bind_ok (eval_of_completes (hcomes log))]
  exact hx' _

/-- The name that is replaced may occur in what replaces it. -/
theorem replaced_comes_print :
    let setting : Setting := ⟨.standard, 1⟩
    let env := Registry.standard.environment.define "t" (.string "a")
    let t : Node := .token .identifier "t" .unknown
    let e : Node :=
      .tree .additive [t, .token .addOp "+" .unknown, .token .string "'b'" .unknown] .unknown
    let n : Node := .tree .functionCall [.token .identifier "Print" .unknown,
      .tree .additive [t, .token .addOp "+" .unknown, t] .unknown] .unknown
    e.CallFree ∧ (setting.evalNode env e).result = .ok (.string "ab") ∧ n.IsExpression ∧
      ¬ n.Mentions .callee "t" ∧
      ∃ x new, (eval .standard 1 (n.replaced "t" e)).Comes env x new ∧
        (eval .standard 1 n).Comes (env.define "t" (.string "ab")) x new ∧
        Event.output new = "abab\n" := by
  intro setting env t e n
  have he : e.CallFree :=
    .tree ⟨rfl, nofun⟩ (List.forall_mem_cons.mpr ⟨.token, List.forall_mem_singleton.mpr .token⟩)
  have hv : (setting.evalNode env e).result = .ok (.string "ab") := by rfl
  have hn : n.IsExpression :=
    .tree rfl (List.forall_mem_singleton.mpr
      (.tree rfl (List.forall_mem_cons.mpr ⟨.token, List.forall_mem_singleton.mpr .token⟩)))
  have ht : ¬ n.Mentions .callee "t" := by
    intro h
    have hmem := mem_mentions h
    simp [n, t, Node.mentions, mentionsOf, leadingMention] at hmem
  obtain ⟨x, new, hx, hx', -⟩ := replaced_comes he hv hn ht
  refine ⟨he, hv, hn, ht, x, new, hx, hx', ?_⟩
  have hlog := congrArg (fun r => Event.output r.2.log) (hx [])
  rw [List.append_nil] at hlog
  rw [← hlog]
  decide +kernel

end Scriptlet
