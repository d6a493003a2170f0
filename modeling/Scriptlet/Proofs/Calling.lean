import Scriptlet.Proofs.Bindings
import Scriptlet.Proofs.InTurn
import Scriptlet.Proofs.Tracking
/-!
# Calls in order

An expression invokes functions of the host in the order of its calls, each of them behind the calls
in its arguments (`Expr.calls`), once each and with the values of its arguments. It leaves the
environment as it is, so that a name or an argument means the same wherever in the expression it
stands. Main statements: what is invoked are the calls of the expression in their order, or the
first of them if it fails (`calls_in_order`), where a failing argument comes before anything that is
wrong with the callee (`CallOrder`).
-/

namespace Scriptlet

open Run
open Source (Word Expr Statement)

/-- The functions entered in a log whose latest event comes first, with their arguments, in the
order in which they were entered. -/
def Event.entries (log : List Event) : List (Callable × List Value) :=
  log.reverse.filterMap fun
    | enter c args => some (c, args)
    | _ => none

namespace Source

mutual

/-- The calls in an expression, from left to right, each behind those in its arguments. -/
def Expr.calls : Expr → List (Word × List Expr)
  | .literal .. | .name _ => []
  | .call callee args _ => callsAll args ++ [(callee, args)]
  | .negate operand _ => operand.calls
  | .binary _ lhs _ rhs _ => lhs.calls ++ rhs.calls

def Expr.callsAll : List Expr → List (Word × List Expr)
  | [] => []
  | e :: es => e.calls ++ Expr.callsAll es

end

end Source

section

variable (host : Host) (rounds : Nat) (env : Environment)

/-- An expression comes to a value in an environment, whatever has happened before. -/
def Host.Gives (e : Expr) (v : Value) : Prop :=
  ∀ log, ∃ t, eval host rounds e.toNode ⟨env, log⟩ = (.ok v, t)

/-- What was entered is the function that the callee of a call is bound to, with the values of the
arguments of the call, in the right number. -/
structure Host.Invokes (call : Word × List Expr) (entry : Callable × List Value) : Prop where
  callee : env.get? call.1.text = some (.callable entry.1)
  arity : ∀ n, entry.1.arity = some n → entry.2.length = n
  args : List.Forall₂ (host.Gives rounds env) call.2 entry.2

/-- Between two states, one function was entered for each of some calls, in their order. -/
def Host.Invoked (calls : List (Word × List Expr)) (s t : State) : Prop :=
  ∃ made, Event.entries t.log = Event.entries s.log ++ made ∧
    List.Forall₂ (host.Invokes rounds env) calls made

/-- A run has an end. If it comes to a value, it has left the environment as it was and has entered
a function for each of some calls; if it fails, then for the first ones of these calls. -/
def Run.Performs {α : Type} (calls : List (Word × List Expr)) (r : Run α) : Prop :=
  ∀ s, s.env = env → r.Ends s ∧
    r.Lands s (fun _ t => t.env = env ∧ host.Invoked rounds env calls s t)
      fun _ t => ∃ done, done <+: calls ∧ host.Invoked rounds env done s t

end

section

variable {host : Host} {rounds : Nat} {env : Environment} {s t u : State}
  {calls calls' : List (Word × List Expr)}

theorem entries_cons (e : Event) (log : List Event) :
    Event.entries (e :: log) = Event.entries log ++ Event.entries [e] := by
  rw [Event.entries, List.reverse_cons, List.filterMap_append]
  rfl

theorem Host.Invoked.none (h : t.log = s.log) : host.Invoked rounds env [] s t :=
  ⟨[], by rw [h, List.append_nil], .nil⟩

theorem Host.Invoked.trans (h : host.Invoked rounds env calls s t)
    (h' : host.Invoked rounds env calls' t u) : host.Invoked rounds env (calls ++ calls') s u := by
  obtain ⟨made, hmade, hcalls⟩ := h
  obtain ⟨made', hmade', hcalls'⟩ := h'
  exact ⟨made ++ made', by rw [hmade', hmade, List.append_assoc],
    List.rel_append hcalls hcalls'⟩

/-! ## Parts of a run -/

variable {α β : Type}

theorem Run.exists_of_bind_ok {r : Run α} {k : α → Run β} {b : β} (h : (r >>= k) s = (.ok b, u)) :
    ∃ a t, r s = (.ok a, t) ∧ k a t = (.ok b, u) := by
  rcases hr : r s with ⟨stop | a, t⟩
  · rw [bind_error hr] at h
    cases h
  · exact ⟨a, t, rfl, (bind_ok hr k).symm.trans h⟩

theorem Run.Ends.bind {r : Run α} {k : α → Run β} (h : r.Ends s)
    (hk : ∀ a t, r s = (.ok a, t) → (k a).Ends t) : (r >>= k).Ends s := by
  intro u hu
  rcases hr : r s with ⟨stop | a, t⟩
  · rw [bind_error hr] at hu
    cases hu
    exact h u hr
  · rw [bind_ok hr] at hu
    exact hk a t hr u hu

theorem performs_pure (a : α) : Run.Performs host rounds env [] (pure a : Run α) :=
  fun _ hs => ⟨fun _ => nofun, hs, .none rfl⟩

theorem performs_fail (f : Fault) : Run.Performs host rounds env calls (fail f : Run α) :=
  fun _ _ => ⟨fun _ => nofun, [], List.nil_prefix, .none rfl⟩

theorem performs_ofExcept (x : Except Fault α) :
    Run.Performs host rounds env [] (ofExcept x) := by
  cases x with
  | ok a => exact performs_pure a
  | error f => exact performs_fail f

theorem Run.Performs.bind {r : Run α} {k : α → Run β} (h : Run.Performs host rounds env calls r)
    (hk : ∀ a s t, s.env = env → r s = (.ok a, t) → Run.Performs host rounds env calls' (k a)) :
    Run.Performs host rounds env (calls ++ calls') (r >>= k) := by
  intro s hs
  obtain ⟨hends, hlands⟩ := h s hs
  refine ⟨hends.bind fun a t hr => ?_, ?_⟩
  · obtain ⟨ht, -⟩ := (lands_of_ok hr).mp hlands
    exact (hk a s t hs hr t ht).1
  · rw [lands_bind]
    refine hlands.mono ?_ ?_
    · rintro a t hr ⟨ht, hinvoked⟩
      refine (hk a s t hs hr t ht).2.mono ?_ ?_
      · rintro b u - ⟨hu, hinvoked'⟩
        exact ⟨hu, hinvoked.trans hinvoked'⟩
      · rintro f u - ⟨done, hdone, hinvoked'⟩
        exact ⟨calls ++ done, (List.prefix_append_right_inj calls).mpr hdone,
          hinvoked.trans hinvoked'⟩
    · rintro f t - ⟨done, hdone, hinvoked⟩
      exact ⟨done, hdone.trans (List.prefix_append ..), hinvoked⟩

theorem Run.Ends.located {r : Run α} (h : r.Ends s) (place : Place) : (located place r).Ends s := by
  intro t ht
  rw [Run.located] at ht
  rcases hr : r s with ⟨stop | a, u⟩
  · cases stop with
    | failure f =>
      rw [hr] at ht
      cases ht
    | outOfRounds => exact h u hr
  · rw [hr] at ht
    cases ht

theorem Run.Performs.located {r : Run α} (h : Run.Performs host rounds env calls r)
    (place : Place) : Run.Performs host rounds env calls (located place r) := by
  intro s hs
  obtain ⟨hends, hlands⟩ := h s hs
  exact ⟨hends.located place, (lands_located place r).mpr hlands⟩

/-! ## Calls -/

/-- A function that is carried out is entered, and no other is. -/
theorem carryOut_enters (host : Host) (c : Callable) (args : List Value) (s : State) :
    ∃ x t, carryOut host c args s = (x, t) ∧ (∀ why, x = .error why → ∃ f, why = .failure f) ∧
      t.env = s.env ∧ Event.entries t.log = Event.entries s.log ++ [(c, args)] := by
  obtain ⟨t, hprint, henv, hentries⟩ : ∃ t,
      Run.print (host.reply c.ident args).output { s with log := .enter c args :: s.log } =
        (.ok (), t) ∧ t.env = s.env ∧
      Event.entries t.log = Event.entries s.log ++ [(c, args)] := by
    unfold Run.print
    split
    · exact ⟨_, rfl, rfl, entries_cons _ _⟩
    · refine ⟨_, rfl, rfl, ?_⟩
      show Event.entries (_ :: _) = _
      rw [entries_cons, entries_cons (.enter c args)]
      exact List.append_nil _
  have hout : carryOut host c args s = accept c (host.reply c.ident args).answer t := by
    rw [carryOut, bind_ok (show record (.enter c args) s = (.ok (), _) from rfl), bind_ok hprint]
  rw [hout]
  cases (host.reply c.ident args).answer with
  | value v | nothing =>
    refine ⟨_, t, rfl, fun why hwhy => ?_, henv, hentries⟩
    cases hwhy
  | foreign | incomputable | rejected | fails =>
    refine ⟨_, t, rfl, fun why hwhy => ?_, henv, hentries⟩
    exact ⟨_, (Except.error.inj hwhy).symm⟩

section

variable {name : String} {vs : List Value} {c : Callable}

/-- A call whose arguments have come to values goes on with its callee. -/
theorem eval_of_args {args : List Node} {p place : Place}
    (hvs : evalArgs host rounds args s = (.ok vs, t)) :
    eval host rounds (.tree .functionCall (.token .identifier name p :: args) place) s =
      located place (callNamed host name vs) t := by
  rw [eval, expectName, pure_bind]
  exact located_congr place (bind_ok hvs _)

theorem callNamed_unbound (h : s.env.get? name = none) :
    callNamed host name vs s = (.error (.failure ⟨.undefined "Function" name, none⟩), s) := by
  simp only [callNamed, resolveCallee, bind_apply, environment, h]
  rfl

theorem callNamed_notCallable {v : Value} (h : s.env.get? name = some v) (hv : v.kind ≠ .callable) :
    callNamed host name vs s = (.error (.failure ⟨.notCallable name v.kind, none⟩), s) := by
  simp only [callNamed, resolveCallee, bind_apply, environment, h]
  cases v with
  | callable c => exact absurd rfl hv
  | null | int n | float x | string s | bool b => rfl

theorem callable_of_kind {v : Value} (hv : v.kind = .callable) : ∃ c, v = .callable c := by
  cases v with
  | callable c => exact ⟨c, rfl⟩
  | null | int | float | string | bool => cases hv

theorem callNamed_callable (h : s.env.get? name = some (.callable c)) :
    callNamed host name vs s =
      invoke host c vs { s with log := .call name vs.length :: s.log } := by
  simp only [callNamed, resolveCallee, bind_apply, environment, h]
  rfl

theorem invoke_wrongArity {count : Nat} (hc : c.arity = some count) (hne : vs.length ≠ count) :
    invoke host c vs s = (.error (.failure ⟨.wrongArity c.name count vs.length, none⟩), s) := by
  simp only [invoke_eq, hc, if_pos hne]
  rfl

theorem invoke_arity (hc : ∀ count, c.arity = some count → vs.length = count) :
    invoke host c vs = carryOut host c vs := by
  rw [invoke_eq]
  split
  next count hcount => rw [if_neg (not_not_intro (hc count hcount))]
  next => rfl

end

/-- A call of a name fails at once, or goes on with the function that the name is bound to. -/
theorem callNamed_cases (host : Host) (name : String) (vs : List Value) (s : State) :
    (∃ f, callNamed host name vs s = (.error (.failure f), s) ∧
        ∀ c, s.env.get? name ≠ some (.callable c)) ∨
      ∃ c, s.env.get? name = some (.callable c) ∧
        callNamed host name vs s =
          invoke host c vs { s with log := .call name vs.length :: s.log } := by
  cases h : s.env.get? name with
  | none => exact .inl ⟨_, callNamed_unbound h, fun c hc => by cases hc⟩
  | some v =>
    by_cases hv : v.kind = .callable
    · obtain ⟨c, rfl⟩ := callable_of_kind hv
      exact .inr ⟨c, rfl, callNamed_callable h⟩
    · refine .inl ⟨_, callNamed_notCallable h hv, ?_⟩
      rintro c ⟨⟩
      exact hv rfl

theorem invoke_cases (host : Host) (c : Callable) (vs : List Value) (s : State) :
    (∃ f, invoke host c vs s = (.error (.failure f), s)) ∨
      (∀ count, c.arity = some count → vs.length = count) ∧
        invoke host c vs = carryOut host c vs := by
  by_cases hc : ∀ count, c.arity = some count → vs.length = count
  · exact .inr ⟨hc, invoke_arity hc⟩
  · obtain ⟨count, hcount, hne⟩ : ∃ count, c.arity = some count ∧ vs.length ≠ count := by
      simpa using hc
    exact .inl ⟨_, invoke_wrongArity hcount hne⟩

/-- A call of a name enters the function that the name is bound to, unless it fails before. -/
theorem performs_callNamed {callee : Word} {args : List Expr} {vs : List Value}
    (hargs : List.Forall₂ (host.Gives rounds env) args vs) :
    Run.Performs host rounds env [(callee, args)] (callNamed host callee.text vs) := by
  intro s hs
  subst hs
  -- a call that fails before its function is entered, with at most the call itself in the log
  have hfails {f : Failure} {t : State} (hr : callNamed host callee.text vs s =
      (.error (.failure f), t)) (ht : Event.entries t.log = Event.entries s.log) :
      (callNamed host callee.text vs).Ends s ∧ (callNamed host callee.text vs).Lands s
        (fun _ t => t.env = s.env ∧ host.Invoked rounds s.env [(callee, args)] s t)
        fun _ t => ∃ done, done <+: [(callee, args)] ∧ host.Invoked rounds s.env done s t :=
    ⟨ends_of_failure hr, (lands_of_failure hr).mpr ⟨[], List.nil_prefix, [], by simp [ht], .nil⟩⟩
  have hcalled : Event.entries (.call callee.text vs.length :: s.log) = Event.entries s.log :=
    (entries_cons _ _).trans (List.append_nil _)
  rcases callNamed_cases host callee.text vs s with ⟨f, hr, -⟩ | ⟨c, h, hinvoke⟩
  · exact hfails hr rfl
  · rcases invoke_cases host c vs { s with log := .call callee.text vs.length :: s.log } with
      ⟨f, hr⟩ | ⟨hc, hcarry⟩
    · exact hfails (hinvoke.trans hr) hcalled
    · obtain ⟨x, t, hr, hx, henv, hentries⟩ := carryOut_enters host c vs
        { s with log := .call callee.text vs.length :: s.log }
      have hmade : host.Invoked rounds s.env [(callee, args)] s t :=
        ⟨[(c, vs)], hcalled ▸ hentries, .cons ⟨h, hc, hargs⟩ .nil⟩
      rw [hcarry, hr] at hinvoke
      cases x with
      | ok v =>
        exact ⟨ends_of_ok hinvoke, (lands_of_ok hinvoke).mpr ⟨henv, hmade⟩⟩
      | error why =>
        obtain ⟨f, rfl⟩ := hx why rfl
        exact ⟨ends_of_failure hinvoke,
          (lands_of_failure hinvoke).mpr ⟨_, List.prefix_refl _, hmade⟩⟩

/-! ## Expressions -/

/-- Where an expression ends does not depend on what has happened before. -/
theorem tracks_expr (e : Expr) :
    TracksSelf host rounds rounds (fun s s' => s'.env = s.env) e.toNode := by
  have k : Coupled (fun _ => True) fun s s' => s'.env = s.env :=
    ⟨fun h _ => by rw [h], fun _ h => h, fun name v h => congrArg (·.define name v) h⟩
  exact tracks_eval k (Nat.le_refl rounds) fun _ _ _ => trivial

theorem gives_of_eval {e : Expr} {v : Value} (hv : eval host rounds e.toNode s = (.ok v, t)) :
    host.Gives rounds s.env e v := by
  intro log
  obtain ⟨u, hu, -⟩ := (lands_of_ok hv).mp (tracks_expr e s ⟨s.env, log⟩ rfl)
  exact ⟨u, hu⟩

theorem gives_of_evalArgs {es : List Expr} {vs : List Value}
    (h : evalArgs host rounds (Expr.toNodes es) s = (.ok vs, t)) :
    List.Forall₂ (host.Gives rounds s.env) es vs := by
  induction es generalizing s vs with
  | nil =>
    rw [Expr.toNodes, evalArgs] at h
    cases h
    exact .nil
  | cons e es ih =>
    rw [Expr.toNodes, evalArgs] at h
    obtain ⟨v, u, hv, h⟩ := exists_of_bind_ok h
    obtain ⟨vs, x, hvs, h⟩ := exists_of_bind_ok h
    cases h
    have henv : u.env = s.env := (keeps_env_expr e s.env).of_eval rfl hv
    refine .cons (gives_of_eval hv) ?_
    rw [← henv]
    exact ih hvs

theorem performs_lookUp (name : String) : Run.Performs host rounds env [] (lookUp name) := by
  have henvironment : Run.Performs host rounds env [] environment :=
    fun _ hs => ⟨fun _ => nofun, hs, .none rfl⟩
  rw [lookUp, ← List.append_nil []]
  refine henvironment.bind fun found _ _ _ _ => ?_
  split
  · exact performs_pure _
  · exact performs_fail _

mutual

/-- An expression invokes its calls in their order. -/
theorem performs_expr : ∀ e : Expr,
    Run.Performs host rounds env e.calls (eval host rounds e.toNode)
  | .literal kind w => by
    rw [Expr.toNode, Word.toNode, eval, Expr.calls]
    exact (performs_ofExcept _).located _
  | .name w => by
    rw [Expr.toNode, Word.toNode, eval, expectName, pure_bind, Expr.calls]
    exact (performs_lookUp w.text).located _
  | .call callee args span => by
    rw [Expr.toNode, Expr.calls, Word.toNode, eval, expectName, pure_bind]
    refine (Run.Performs.bind (performs_exprs args) fun vs s t hs hvs => ?_).located _
    subst hs
    exact performs_callNamed (gives_of_evalArgs hvs)
  | .negate operand span => by
    rw [Expr.toNode, Expr.calls, eval]
    rw [← List.append_nil operand.calls]
    exact ((performs_expr operand).bind fun v _ _ _ _ => performs_ofExcept _).located _
  | .binary level lhs op rhs span => by
    rw [Expr.toNode, Expr.calls, Word.toNode, eval_binary]
    rw [← List.append_nil rhs.calls]
    exact ((performs_expr lhs).bind fun a _ _ _ _ => (performs_expr rhs).bind fun b _ _ _ _ =>
      performs_ofExcept _).located _

theorem performs_exprs : ∀ es : List Expr,
    Run.Performs host rounds env (Expr.callsAll es) (evalArgs host rounds (Expr.toNodes es))
  | [] => by
    rw [Expr.toNodes, Expr.callsAll, evalArgs]
    exact performs_pure []
  | e :: es => by
    rw [Expr.toNodes, Expr.callsAll, evalArgs]
    rw [← List.append_nil (Expr.callsAll es)]
    exact (performs_expr e).bind fun v _ _ _ _ => (performs_exprs es).bind fun vs _ _ _ _ =>
      performs_pure (v :: vs)

end

end

/-! ## The parts of a call -/

/-- What comes first in a call: a failing argument, then a callee that is not bound, then one that
is bound to no function, then arguments in the wrong number. The function is entered where none of
these is so. -/
structure CallOrder (host : Host) (rounds : Nat) (callee : Word) (args : List Expr)
    (span : Source.Span) (s : State) : Prop where
  argument {before : List Expr} {a : Expr} {after : List Expr} {vs : List Value} {t u : State}
    {f : Failure} (hargs : args = before ++ a :: after)
    (hvs : evalArgs host rounds (Expr.toNodes before) s = (.ok vs, t))
    (ha : eval host rounds a.toNode t = (.error (.failure f), u)) :
    eval host rounds (Expr.call callee args span).toNode s = (.error (.failure f), u)
  unbound {vs : List Value} {t : State}
    (hvs : evalArgs host rounds (Expr.toNodes args) s = (.ok vs, t))
    (hcallee : t.env.get? callee.text = none) :
    eval host rounds (Expr.call callee args span).toNode s =
      (.error (.failure ⟨.undefined "Function" callee.text, (Place.span span).location⟩), t)
  notCallable {vs : List Value} {t : State} {v : Value}
    (hvs : evalArgs host rounds (Expr.toNodes args) s = (.ok vs, t))
    (hcallee : t.env.get? callee.text = some v) (hv : v.kind ≠ .callable) :
    eval host rounds (Expr.call callee args span).toNode s =
      (.error (.failure ⟨.notCallable callee.text v.kind, (Place.span span).location⟩), t)
  wrongArity {vs : List Value} {t : State} {c : Callable} {count : Nat}
    (hvs : evalArgs host rounds (Expr.toNodes args) s = (.ok vs, t))
    (hcallee : t.env.get? callee.text = some (.callable c)) (hc : c.arity = some count)
    (hne : vs.length ≠ count) :
    eval host rounds (Expr.call callee args span).toNode s =
      (.error (.failure ⟨.wrongArity c.name count vs.length, (Place.span span).location⟩),
        { t with log := .call callee.text vs.length :: t.log })
  entered {vs : List Value} {t : State} {c : Callable}
    (hvs : evalArgs host rounds (Expr.toNodes args) s = (.ok vs, t))
    (hcallee : t.env.get? callee.text = some (.callable c))
    (hc : ∀ count, c.arity = some count → vs.length = count) :
    Event.entries (eval host rounds (Expr.call callee args span).toNode s).2.log =
      Event.entries t.log ++ [(c, vs)]

section

variable {host : Host} {rounds : Nat} {callee : Word} {args : List Expr} {span : Source.Span}
  {s t : State} {vs : List Value}

theorem toNodes_append (xs ys : List Expr) :
    Expr.toNodes (xs ++ ys) = Expr.toNodes xs ++ Expr.toNodes ys := by
  induction xs with
  | nil => rw [Expr.toNodes, List.nil_append, List.nil_append]
  | cons x xs ih => rw [List.cons_append, Expr.toNodes, Expr.toNodes, ih, List.cons_append]

theorem eval_call : eval host rounds (Expr.call callee args span).toNode =
    located (.span span) (evalArgs host rounds (Expr.toNodes args) >>=
      callNamed host callee.text) := by
  rw [Expr.toNode, Word.toNode, eval, expectName, pure_bind]

theorem eval_call_of_args (hvs : evalArgs host rounds (Expr.toNodes args) s = (.ok vs, t)) :
    eval host rounds (Expr.call callee args span).toNode s =
      located (.span span) (callNamed host callee.text vs) t := by
  rw [Expr.toNode, Word.toNode]
  exact eval_of_args hvs

theorem located_of_failure {fault : Fault} (hf : fault.isNative = true) {r : Run Value}
    (hr : r s = (.error (.failure ⟨fault, none⟩), t)) :
    located (.span span) r s =
      (.error (.failure ⟨fault, (Place.span span).location⟩), t) := by
  rw [located, hr]
  simp only [leaving_of_native hf]
  rfl

theorem callOrder (host : Host) (rounds : Nat) (callee : Word) (args : List Expr)
    (span : Source.Span) (s : State) : CallOrder host rounds callee args span s where
  argument {before a after vs t u f} hargs hvs ha := by
    obtain ⟨sp, hplace⟩ := place_expr a
    have hsettled : f.Settled := (lands_of_failure ha).mp (settled_of_span hplace t)
    subst hargs
    rw [eval_call, toNodes_append, Expr.toNodes, evalArgs_append, evalArgs, bind_assoc, located,
      bind_ok hvs, bind_assoc, bind_assoc, bind_error ha]
    simp only [leaving_of_settled hsettled]
  unbound hvs hcallee := by
    rw [eval_call_of_args hvs]
    exact located_of_failure rfl (callNamed_unbound hcallee)
  notCallable hvs hcallee hv := by
    rw [eval_call_of_args hvs]
    exact located_of_failure rfl (callNamed_notCallable hcallee hv)
  wrongArity hvs hcallee hc hne := by
    rw [eval_call_of_args hvs]
    exact located_of_failure rfl
      ((callNamed_callable hcallee).trans (invoke_wrongArity hc hne))
  entered {vs t c} hvs hcallee hc := by
    obtain ⟨x, u, hu, -, -, hentries⟩ := carryOut_enters host c vs
      { t with log := .call callee.text vs.length :: t.log }
    rw [eval_call_of_args hvs, log_located, callNamed_callable hcallee, invoke_arity hc, hu,
      hentries, entries_cons]
    exact congrArg (· ++ [(c, vs)]) (List.append_nil _)

end

/-- An expression or a statement that is a call comes to an end. If that is a value, the functions
invoked are those of its calls, innermost and leftmost first, each once and with the values of its
arguments; if it is a failure, they are those of the first ones of its calls. Within each call, the
arguments come before the callee, and both before the function is entered. -/
theorem calls_in_order (host : Host) (rounds : Nat) (s : State) :
    (∀ e : Expr, (eval host rounds e.toNode).Ends s ∧
      (eval host rounds e.toNode).Lands s
        (fun _ t => host.Invoked rounds s.env e.calls s t)
        fun _ t => ∃ done, done <+: e.calls ∧ host.Invoked rounds s.env done s t) ∧
      ∀ callee args span,
        (Statement.call callee args span).toNode = (Expr.call callee args span).toNode ∧
          CallOrder host rounds callee args span s := by
  refine ⟨fun e => ?_, fun callee args span => ⟨rfl, callOrder host rounds callee args span s⟩⟩
  have hperforms : Run.Performs host rounds s.env e.calls (eval host rounds e.toNode) :=
    performs_expr e
  obtain ⟨hends, hlands⟩ := hperforms s rfl
  exact ⟨hends, hlands.weaken fun _ _ _ ht => ht.2⟩

/-- Calls inside a call, one of them by another name of its function; an argument that is not bound
stops the call around them, and the one behind it. -/
example :
    ((Event.entries ((Setting.mk .standard 1).runSource Registry.standard.environment
      "p = Print Print(Print(1), p(2, p()), x, Print(4))").log).map fun e =>
        (e.1.name, e.2.length)) = [("Print", 1), ("Print", 0), ("Print", 2)] := by
  decide +kernel

end Scriptlet
