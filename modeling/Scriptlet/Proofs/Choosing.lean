import Scriptlet.Proofs.Calling
import Scriptlet.Proofs.Looping
import Scriptlet.Proofs.Visiting
/-!
# Chains of conditionals

Conditionals that follow one another through their else branches are the links of a chain. A run of
a chain evaluates the conditions of its links, one after the other and all in the environment that
it started in, up to the first one that is met; then it runs the body of that link and nothing else.
If none is met, it runs what stands behind the last link. Main statement: `chain_chooses`, where
`Host.Course` says what is evaluated, and from where, and what the chain comes to.
-/

namespace Scriptlet

open Run
open Source (Keyword Guard Expr Block Otherwise Conditional)

namespace Source

/-- A guard with its body, and the piece of the source that the conditional takes up which begins
with it. -/
structure Link where
  guard : Guard
  body : Block
  span : Span

mutual

/-- The links of a chain, from the first one on. A loop is a link of none. -/
def Conditional.links : Conditional → List Link
  | .mk guard body otherwise span =>
    if guard.keyword.label = .ifBlock then ⟨guard, body, span⟩ :: otherwise.links else []

def Otherwise.links : Otherwise → List Link
  | .absent | .block _ => []
  | .chain c => c.links

end

mutual

/-- What stands behind the last link of a chain, if there is anything: a block or a loop. -/
def Conditional.fallback : Conditional → Option Node
  | .mk guard body otherwise span =>
    if guard.keyword.label = .ifBlock then otherwise.fallback
    else some (Conditional.mk guard body otherwise span).toNode

def Otherwise.fallback : Otherwise → Option Node
  | .absent => none
  | .block b => some b.toNode
  | .chain c => c.fallback

end

mutual

/-- The nodes that hold a chain together: those of its links, and the else branches between. -/
def Conditional.spine : Conditional → List Node
  | .mk guard body otherwise span =>
    if guard.keyword.label = .ifBlock then
      (Conditional.mk guard body otherwise span).toNode :: otherwise.spine
    else []

def Otherwise.spine : Otherwise → List Node
  | .absent => []
  | .block b => [.tree .elseBlock [b.toNode] (.span b.span)]
  | .chain c => .tree .elseBlock [c.toNode] (.span c.span) :: c.spine

end

def conditions (links : List Link) : List Expr := links.map (·.guard.condition)

end Source

open Source (Link conditions)

section

variable (host : Host) (rounds : Nat) (env : Environment)

def Host.Denies (e : Expr) (f : Failure) : Prop :=
  ∀ log, ∃ t, eval host rounds e.toNode ⟨env, log⟩ = (.error (.failure f), t)

def Host.Passes (l : Link) : Prop :=
  host.Gives rounds env l.guard.condition (.bool (wanted l.guard.keyword))

/-- The condition of a link has a truth value, and is not met. -/
def Host.Declines (l : Link) : Prop :=
  host.Gives rounds env l.guard.condition (.bool (!wanted l.guard.keyword))

/-- Expressions that are evaluated one after the other, each with the state that it starts from. -/
def Host.visits : List Expr → State → List (Node × State)
  | [], _ => []
  | e :: es, s => (e.toNode, s) :: Host.visits es (eval host rounds e.toNode s).2

/-- The run of a chain from a state: the links whose conditions it evaluates, in this order, what it
evaluates behind them, if anything, the state in between, and what it comes to. -/
structure Host.Course (c : Conditional) (s : State) (tried : List Link) (chosen : Option Node)
    (t : State) (r : Except Stop Value × State) : Prop where
  state : (evalArgs host rounds (Expr.toNodes (conditions tried)) s).2 = t
  env : t.env = s.env
  /-- Each of these is evaluated, from where those before it have led. -/
  reached : ∀ p ∈ host.visits rounds (conditions tried) s ++ chosen.toList.map (·, t),
    Reaches host rounds c.toNode s p.1 p.2
  /-- Nothing else is, but what they evaluate themselves. -/
  only : ∀ m u, Reaches host rounds c.toNode s m u → m ∈ c.spine ∨
    ∃ p ∈ host.visits rounds (conditions tried) s ++ chosen.toList.map (·, t),
      Reaches host rounds p.1 p.2 m u
  result : eval host rounds c.toNode s = r

/-- What a chain does, by the conditions of its links in the environment that it starts in. -/
structure Host.Chooses (c : Conditional) (s : State) : Prop where
  /-- Behind the first condition that is met, the body of its link runs. -/
  met {before : List Link} {l : Link} {after : List Link} (hlinks : c.links = before ++ l :: after)
    (hbefore : ∀ k ∈ before, host.Declines rounds s.env k) (h : host.Passes rounds s.env l) :
    ∃ t, host.Course rounds c s (before ++ [l]) (some l.body.toNode) t
      (eval host rounds l.body.toNode t)
  /-- If no condition is met, all are evaluated, and then what stands behind the last link runs. -/
  unmet (h : ∀ k ∈ c.links, host.Declines rounds s.env k) :
    ∃ t, host.Course rounds c s c.links c.fallback t
      (match c.fallback with
        | none => (.ok .null, t)
        | some n => eval host rounds n t)
  /-- If a condition fails before any is met, so does the chain. -/
  fails {before : List Link} {l : Link} {after : List Link} {f : Failure}
    (hlinks : c.links = before ++ l :: after)
    (hbefore : ∀ k ∈ before, host.Declines rounds s.env k)
    (h : host.Denies rounds s.env l.guard.condition f) :
    ∃ t, host.Course rounds c s (before ++ [l]) none t (.error (.failure f), t)
  /-- If a condition has a value before any is met, and this is no truth value, the chain fails
  where the link of the condition stands. -/
  notBoolean {before : List Link} {l : Link} {after : List Link} {v : Value}
    (hlinks : c.links = before ++ l :: after)
    (hbefore : ∀ k ∈ before, host.Declines rounds s.env k)
    (h : host.Gives rounds s.env l.guard.condition v) (hv : v.kind ≠ .bool) :
    ∃ t, host.Course rounds c s (before ++ [l]) none t
      (.error (.failure ⟨.notBoolean v.kind, (Place.span l.span).location⟩), t)
  /-- There are no other cases. -/
  cases : (∀ k ∈ c.links, host.Declines rounds s.env k) ∨
    ∃ before l after, c.links = before ++ l :: after ∧
      (∀ k ∈ before, host.Declines rounds s.env k) ∧
      (host.Passes rounds s.env l ∨ (∃ f, host.Denies rounds s.env l.guard.condition f) ∨
        ∃ v, host.Gives rounds s.env l.guard.condition v ∧ v.kind ≠ .bool)

end

/-! ## Expressions -/

section

variable {host : Host} {rounds : Nat} {s t : State}

theorem denies_of_eval {e : Expr} {f : Failure}
    (hf : eval host rounds e.toNode s = (.error (.failure f), t)) :
    host.Denies rounds s.env e f := by
  intro log
  obtain ⟨u, hu, -⟩ := (lands_of_failure hf).mp (tracks_expr e s ⟨s.env, log⟩ rfl)
  exact ⟨u, hu⟩

/-- In an environment, an expression comes to a value or fails. -/
theorem gives_or_denies (host : Host) (rounds : Nat) (env : Environment) (e : Expr) :
    (∃ v, host.Gives rounds env e v) ∨ ∃ f, host.Denies rounds env e f := by
  obtain ⟨hends, -⟩ := @performs_expr host rounds env e ⟨env, []⟩ rfl
  rcases hr : eval host rounds e.toNode ⟨env, []⟩ with ⟨stop | v, t⟩
  · cases stop with
    | failure f => exact .inr ⟨f, denies_of_eval hr⟩
    | outOfRounds => exact absurd hr (hends t)
  · exact .inl ⟨v, gives_of_eval hr⟩

/-- An expression that has a value in an environment comes to it from a state with this environment,
and leaves the environment as it is. -/
theorem Host.Gives.eval {e : Expr} {v : Value} (h : host.Gives rounds s.env e v) :
    ∃ t, eval host rounds e.toNode s = (.ok v, t) ∧ t.env = s.env := by
  obtain ⟨t, ht⟩ := h s.log
  exact ⟨t, ht, (keeps_env_expr e s.env).of_eval rfl ht⟩

theorem Host.Denies.eval {e : Expr} {f : Failure} (h : host.Denies rounds s.env e f) :
    ∃ t, eval host rounds e.toNode s = (.error (.failure f), t) ∧ t.env = s.env := by
  obtain ⟨t, ht⟩ := h s.log
  exact ⟨t, ht, (lands_of_failure ht).mp (keeps_env_expr e s.env s rfl)⟩

/-! ## Links -/

/-- What comes behind a run that only goes on to a value may as well be done at the place. -/
theorem located_bind_pure {α β : Type} (place : Place) (r : Run α) (g : α → β) :
    (located place r >>= fun a => pure (g a)) = located place (r >>= fun a => pure (g a)) := by
  funext s
  simp only [located, bind_apply]
  rcases r s with ⟨stop | a, t⟩
  · cases stop <;> rfl
  · rfl

/-- A block has no value of its own. -/
theorem bind_null_block (host : Host) (rounds : Nat) (b : Block) :
    (do let _ ← eval host rounds b.toNode; pure Value.null) = eval host rounds b.toNode := by
  obtain ⟨statements, span⟩ := b
  rw [Block.toNode, eval_statements host rounds (.inr rfl), located_bind_pure, bind_assoc]
  rfl

variable {guard : Guard} {body : Block} {otherwise : Otherwise} {span : Source.Span}

theorem eval_link (hw : guard.keyword.label = .ifBlock) :
    eval host rounds (Conditional.mk guard body otherwise span).toNode =
      located (.span span) (do
        if ← check host rounds guard.keyword guard.keyword.text guard.condition.toNode then
          eval host rounds body.toNode
        else evalElse host rounds otherwise.toNodes) := by
  rw [Conditional.toNode, eval_conditional host rounds guard.keyword guard.keyword.text _ _ _ _
    (single_otherwise otherwise), proceed_ifBlock hw]
  simp only [once, bind_assoc, pure_bind]
  rw [bind_null_block]

/-- A link whose condition is met does what its body does. -/
theorem eval_of_passes (hw : guard.keyword.label = .ifBlock)
    (h : eval host rounds guard.condition.toNode s = (.ok (.bool (wanted guard.keyword)), t)) :
    eval host rounds (Conditional.mk guard body otherwise span).toNode s =
      eval host rounds body.toNode t := by
  have hmet := check_of_bool (w := guard.keyword) h
  rw [beq_self_eq_true] at hmet
  obtain ⟨sp, hplace⟩ := place_block body
  rw [eval_link hw, located_congr _ ((bind_ok hmet _).trans (by rw [if_pos rfl])),
    located_of_settled _ (settled_of_span hplace t)]

/-- A link whose condition is not met does what its else branch does. -/
theorem eval_of_declines (hw : guard.keyword.label = .ifBlock)
    (h : eval host rounds guard.condition.toNode s = (.ok (.bool !wanted guard.keyword), t)) :
    eval host rounds (Conditional.mk guard body otherwise span).toNode s =
      match branch? otherwise with
      | none => (.ok .null, t)
      | some e => eval host rounds e t := by
  have hmet := check_of_bool (w := guard.keyword) h
  rw [Bool.not_beq_self] at hmet
  rw [eval_link hw, located_congr _ ((bind_ok hmet _).trans (by rw [if_neg (by decide)])),
    evalElse_eq]
  cases hbranch : branch? otherwise with
  | none => rfl
  | some e =>
    obtain ⟨sp, hplace⟩ := place_branch hbranch
    exact located_of_settled _ (settled_of_span hplace t)

theorem fallback_link (hw : guard.keyword.label = .ifBlock) :
    (Conditional.mk guard body otherwise span).fallback = otherwise.fallback := by
  rw [Conditional.fallback, if_pos hw]

theorem spine_link (hw : guard.keyword.label = .ifBlock) :
    (Conditional.mk guard body otherwise span).spine =
      (Conditional.mk guard body otherwise span).toNode :: otherwise.spine := by
  rw [Conditional.spine, if_pos hw]

/-- A conditional with a link is the link, and behind it the others. -/
theorem eq_of_links {c : Conditional} {l : Link} {ls : List Link} (h : c.links = l :: ls) :
    ∃ otherwise, c = .mk l.guard l.body otherwise l.span ∧ l.guard.keyword.label = .ifBlock ∧
      otherwise.links = ls := by
  obtain ⟨guard, body, otherwise, span⟩ := c
  rw [Conditional.links] at h
  split at h
  next hw =>
    cases h
    exact ⟨otherwise, rfl, hw, rfl⟩
  next => cases h

/-- Without a link, a conditional is a loop, and stands behind all the links there are. -/
theorem loop_of_links {c : Conditional} (h : c.links = []) :
    c.fallback = some c.toNode ∧ c.spine = [] := by
  obtain ⟨guard, body, otherwise, span⟩ := c
  rw [Conditional.links] at h
  split at h
  next => cases h
  next hw => exact ⟨by rw [Conditional.fallback, if_neg hw], by rw [Conditional.spine, if_neg hw]⟩

/-! ## Courses -/

/-- A link evaluates its condition, and what it goes on with when that has a truth value. -/
theorem enters_link {m : Node} {u : State} (hw : guard.keyword.label = .ifBlock) :
    Enters host rounds (Conditional.mk guard body otherwise span).toNode s m u ↔
      (m = guard.condition.toNode ∧ u = s) ∨
      (m = body.toNode ∧ check host rounds guard.keyword guard.keyword.text
        guard.condition.toNode s = (.ok true, u)) ∨
      (otherwise.toNodes = [m] ∧ check host rounds guard.keyword guard.keyword.text
        guard.condition.toNode s = (.ok false, u)) := by
  rw [Conditional.toNode, enters_conditional (single_otherwise otherwise), Branches]
  refine or_congr Iff.rfl (or_congr ?_ Iff.rfl)
  cases hk : guard.keyword with
  | ifWord | unlessWord =>
    constructor
    · rintro ⟨t, hmet, rfl, rfl⟩
      exact ⟨rfl, hmet⟩
    · rintro ⟨rfl, hmet⟩
      exact ⟨u, hmet, rfl, rfl⟩
  | whileWord | untilWord =>
    rw [hk] at hw
    cases hw

theorem reaches_elseBlock {n m : Node} {place : Place} {u : State}
    (h : Reaches host rounds (.tree .elseBlock [n] place) s m u) :
    m = .tree .elseBlock [n] place ∨ Reaches host rounds n s m u := by
  cases h with
  | here => exact .inl rfl
  | into he rest =>
    obtain ⟨hkids, rfl⟩ := visits_of_enters he
    cases hkids
    exact .inr rest

/-- What a link comes to evaluate: itself, and what its condition and then one of its branches
evaluate. -/
theorem reaches_link {m : Node} {u : State} (hw : guard.keyword.label = .ifBlock)
    (h : Reaches host rounds (Conditional.mk guard body otherwise span).toNode s m u) :
    m = (Conditional.mk guard body otherwise span).toNode ∨
      Reaches host rounds guard.condition.toNode s m u ∨
      ∃ met x, check host rounds guard.keyword guard.keyword.text guard.condition.toNode s =
        (.ok met, x) ∧
          (met = true ∧ Reaches host rounds body.toNode x m u ∨
            met = false ∧ ∃ e, otherwise.toNodes = [e] ∧ Reaches host rounds e x m u) := by
  cases h with
  | here => exact .inl rfl
  | into he rest =>
    rcases (enters_link hw).mp he with ⟨rfl, rfl⟩ | ⟨rfl, hmet⟩ | ⟨hotherwise, hmet⟩
    · exact .inr (.inl rest)
    · exact .inr (.inr ⟨true, _, hmet, .inl ⟨rfl, rest⟩⟩)
    · exact .inr (.inr ⟨false, _, hmet, .inr ⟨rfl, _, hotherwise, rest⟩⟩)

theorem reaches_condition (hw : guard.keyword.label = .ifBlock) :
    Reaches host rounds (Conditional.mk guard body otherwise span).toNode s
      guard.condition.toNode s :=
  .into ((enters_link hw).mpr (.inl ⟨rfl, rfl⟩)) .here

theorem state_cons {e : Expr} {es : List Expr} {v : Value}
    (h : eval host rounds e.toNode s = (.ok v, t)) :
    (evalArgs host rounds (Expr.toNodes (e :: es)) s).2 =
      (evalArgs host rounds (Expr.toNodes es) t).2 := by
  rw [Expr.toNodes, evalArgs, bind_ok h, bind_apply]
  rcases evalArgs host rounds (Expr.toNodes es) t with ⟨stop | vs, u⟩ <;> rfl

theorem state_single (e : Expr) (s : State) :
    (evalArgs host rounds (Expr.toNodes [e]) s).2 = (eval host rounds e.toNode s).2 := by
  rw [Expr.toNodes, Expr.toNodes, evalArgs, evalArgs, bind_apply]
  rcases eval host rounds e.toNode s with ⟨stop | v, u⟩ <;> rfl

/-- A loop is all that a chain without links runs. -/
theorem course_loop {c : Conditional} (h : c.links = []) (s : State) :
    host.Course rounds c s [] c.fallback s
      (match c.fallback with
        | none => (.ok .null, s)
        | some n => eval host rounds n s) := by
  obtain ⟨hfallback, -⟩ := loop_of_links h
  rw [hfallback]
  exact
    { state := rfl
      env := rfl
      reached := List.forall_mem_singleton.mpr .here
      only := fun m u h => .inr ⟨_, List.mem_singleton_self _, h⟩
      result := rfl }

section

variable (hw : guard.keyword.label = .ifBlock)

include hw

/-- A link whose condition fails, or has no truth value, evaluates that alone. -/
theorem course_stops {f g : Failure} (hstate : (eval host rounds guard.condition.toNode s).2 = t)
    (henv : t.env = s.env)
    (hcheck : check host rounds guard.keyword guard.keyword.text guard.condition.toNode s =
      (.error (.failure f), t)) (hg : f.leaving (.span span) = g) :
    host.Course rounds (.mk guard body otherwise span) s [⟨guard, body, span⟩] none t
      (.error (.failure g), t) where
  state := (state_single _ s).trans hstate
  env := henv
  reached := List.forall_mem_singleton.mpr (reaches_condition hw)
  only m u h := by
    rw [spine_link hw]
    rcases reaches_link hw h with rfl | h | ⟨met, x, hmet, -⟩
    · exact .inl List.mem_cons_self
    · exact .inr ⟨_, List.mem_singleton_self _, h⟩
    · rw [hcheck] at hmet
      cases hmet
  result := by
    rw [eval_link hw, located, bind_error hcheck, ← hg]

/-- A link whose condition is met goes on with its body. -/
theorem course_met (henv : t.env = s.env)
    (h : eval host rounds guard.condition.toNode s = (.ok (.bool (wanted guard.keyword)), t)) :
    host.Course rounds (.mk guard body otherwise span) s [⟨guard, body, span⟩] (some body.toNode) t
      (eval host rounds body.toNode t) where
  state := (state_single _ s).trans (congrArg Prod.snd h)
  env := henv
  reached := by
    have hmet := check_of_bool (w := guard.keyword) h
    rw [beq_self_eq_true] at hmet
    exact List.forall_mem_cons.mpr ⟨reaches_condition hw, List.forall_mem_singleton.mpr
      (.into ((enters_link hw).mpr (.inr (.inl ⟨rfl, hmet⟩))) .here)⟩
  only m u hm := by
    rw [spine_link hw]
    rcases reaches_link hw hm with rfl | hm | ⟨met, x, hmet, hm⟩
    · exact .inl List.mem_cons_self
    · exact .inr ⟨_, List.mem_cons_self, hm⟩
    · rw [check_of_bool h, beq_self_eq_true] at hmet
      cases hmet
      rcases hm with ⟨-, hm⟩ | ⟨hmet, -⟩
      · exact .inr ⟨_, List.mem_cons_of_mem _ (List.mem_singleton_self _), hm⟩
      · cases hmet
  result := eval_of_passes hw h

variable (hdeclined : eval host rounds guard.condition.toNode s =
  (.ok (.bool !wanted guard.keyword), t))

include hdeclined

/-- A link whose condition is not met evaluates nothing behind it but what is in its else branch. -/
theorem reaches_declined {m : Node} {u : State}
    (h : Reaches host rounds (Conditional.mk guard body otherwise span).toNode s m u) :
    m = (Conditional.mk guard body otherwise span).toNode ∨
      Reaches host rounds guard.condition.toNode s m u ∨
      ∃ e, otherwise.toNodes = [e] ∧ Reaches host rounds e t m u := by
  rcases reaches_link hw h with h | h | ⟨met, x, hmet, h⟩
  · exact .inl h
  · exact .inr (.inl h)
  · rw [check_of_bool hdeclined, Bool.not_beq_self] at hmet
    cases hmet
    rcases h with ⟨hmet, -⟩ | ⟨-, h⟩
    · cases hmet
    · exact .inr (.inr h)

theorem reaches_otherwise {e m : Node} {u : State} (he : otherwise.toNodes = [e])
    (h : Reaches host rounds e t m u) :
    Reaches host rounds (Conditional.mk guard body otherwise span).toNode s m u := by
  have hmet := check_of_bool (w := guard.keyword) hdeclined
  rw [Bool.not_beq_self] at hmet
  exact .into ((enters_link hw).mpr (.inr (.inr ⟨he, hmet⟩))) h

/-- The last link of a chain, with a condition that is not met. -/
theorem course_unmet (henv : t.env = s.env) (hlast : ∀ d, otherwise ≠ .chain d) :
    host.Course rounds (.mk guard body otherwise span) s [⟨guard, body, span⟩] otherwise.fallback t
      (match otherwise.fallback with
        | none => (.ok .null, t)
        | some n => eval host rounds n t) where
  state := (state_single _ s).trans (congrArg Prod.snd hdeclined)
  env := henv
  reached := by
    refine List.forall_mem_cons.mpr ⟨reaches_condition hw, ?_⟩
    cases otherwise with
    | absent => exact List.forall_mem_nil _
    | block b =>
      exact List.forall_mem_singleton.mpr (reaches_otherwise hw hdeclined rfl (.into .branch .here))
    | chain d => exact absurd rfl (hlast d)
  only m u hm := by
    rw [spine_link hw]
    rcases reaches_declined hw hdeclined hm with rfl | hm | ⟨e, he, hm⟩
    · exact .inl List.mem_cons_self
    · exact .inr ⟨_, List.mem_cons_self, hm⟩
    · cases otherwise with
      | absent => cases he
      | block b =>
        cases he
        rcases reaches_elseBlock hm with rfl | hm
        · exact .inl (List.mem_cons_of_mem _ List.mem_cons_self)
        · exact .inr ⟨_, List.mem_cons_of_mem _ (List.mem_singleton_self _), hm⟩
      | chain d => exact absurd rfl (hlast d)
  result := by
    rw [eval_of_declines hw hdeclined]
    cases otherwise with
    | absent | block b => rfl
    | chain d => exact absurd rfl (hlast d)

/-- A link whose condition is not met, and the course of the links behind it. -/
theorem course_cons {d : Conditional} {tried : List Link} {chosen : Option Node} {u : State}
    {r : Except Stop Value × State} (hotherwise : otherwise = .chain d) (henv : t.env = s.env)
    (h : host.Course rounds d t tried chosen u r) :
    host.Course rounds (.mk guard body otherwise span) s (⟨guard, body, span⟩ :: tried) chosen u
      r where
  state := (state_cons hdeclined).trans h.state
  env := h.env.trans henv
  reached := by
    subst hotherwise
    rw [conditions, List.map_cons, Host.visits, hdeclined, List.cons_append]
    refine List.forall_mem_cons.mpr ⟨reaches_condition hw, fun p hp => ?_⟩
    exact reaches_otherwise hw hdeclined rfl (.into .branch (h.reached p hp))
  only m x hm := by
    subst hotherwise
    rw [conditions, List.map_cons, Host.visits, hdeclined, List.cons_append, spine_link hw,
      Otherwise.spine]
    rcases reaches_declined hw hdeclined hm with rfl | hm | ⟨e, he, hm⟩
    · exact .inl List.mem_cons_self
    · exact .inr ⟨_, List.mem_cons_self, hm⟩
    · cases he
      rcases reaches_elseBlock hm with rfl | hm
      · exact .inl (List.mem_cons_of_mem _ List.mem_cons_self)
      · rcases h.only m x hm with hspine | ⟨p, hp, hm⟩
        · exact .inl (List.mem_cons_of_mem _ (List.mem_cons_of_mem _ hspine))
        · exact .inr ⟨p, List.mem_cons_of_mem _ hp, hm⟩
  result := by
    subst hotherwise
    exact (eval_of_declines hw hdeclined).trans h.result

end

/-! ## Chains -/

/-- Behind links whose conditions are not met, a chain goes on as a chain of the others does. -/
theorem course_append {c : Conditional} {before : List Link} {l : Link} {after : List Link}
    {tried : List Link} {chosen : Option Node} {r : State → Except Stop Value × State}
    (hlinks : c.links = before ++ l :: after)
    (hbefore : ∀ k ∈ before, host.Declines rounds s.env k)
    (h : ∀ (d : Conditional) (t : State), d.links = l :: after → t.env = s.env →
      d.fallback = c.fallback → ∃ u, host.Course rounds d t tried chosen u (r u)) :
    ∃ u, host.Course rounds c s (before ++ tried) chosen u (r u) := by
  induction before generalizing c s with
  | nil => exact h c s hlinks rfl rfl
  | cons k before ih =>
    obtain ⟨hk, hbefore⟩ := List.forall_mem_cons.mp hbefore
    obtain ⟨otherwise, rfl, hw, hrest⟩ := eq_of_links hlinks
    obtain ⟨d, rfl⟩ : ∃ d, otherwise = .chain d := by
      cases otherwise with
      | chain d => exact ⟨d, rfl⟩
      | absent | block b => cases before <;> cases hrest
    obtain ⟨t, hdeclined, henv⟩ := Host.Gives.eval hk
    obtain ⟨u, hu⟩ := @ih t d hrest (fun k hk => henv ▸ hbefore k hk) fun e x he hx hfallback =>
      h e x he (hx.trans henv) (hfallback.trans (by rw [fallback_link hw, Otherwise.fallback]))
    exact ⟨u, course_cons hw hdeclined rfl henv hu⟩

/-- The conditions of some links are all not met, or there is a first one of which that is not
so. -/
theorem exists_first (ls : List Link) :
    (∀ k ∈ ls, host.Declines rounds s.env k) ∨ ∃ before l after, ls = before ++ l :: after ∧
      (∀ k ∈ before, host.Declines rounds s.env k) ∧
      (host.Passes rounds s.env l ∨ (∃ f, host.Denies rounds s.env l.guard.condition f) ∨
        ∃ v, host.Gives rounds s.env l.guard.condition v ∧ v.kind ≠ .bool) := by
  induction ls with
  | nil => exact .inl (List.forall_mem_nil _)
  | cons k ls ih =>
    have hhere (h : host.Passes rounds s.env k ∨
        (∃ f, host.Denies rounds s.env k.guard.condition f) ∨
          ∃ v, host.Gives rounds s.env k.guard.condition v ∧ v.kind ≠ .bool) :
        ∃ before l after, k :: ls = before ++ l :: after ∧
          (∀ k ∈ before, host.Declines rounds s.env k) ∧
          (host.Passes rounds s.env l ∨ (∃ f, host.Denies rounds s.env l.guard.condition f) ∨
            ∃ v, host.Gives rounds s.env l.guard.condition v ∧ v.kind ≠ .bool) :=
      ⟨[], k, ls, rfl, List.forall_mem_nil _, h⟩
    rcases gives_or_denies host rounds s.env k.guard.condition with ⟨v, hv⟩ | hdenied
    · by_cases hbool : v.kind = .bool
      · obtain ⟨b, rfl⟩ := bool_of_kind hbool
        rcases Bool.eq_or_eq_not b (wanted k.guard.keyword) with rfl | rfl
        · exact .inr (hhere (.inl hv))
        · rcases ih with hall | ⟨before, l, after, rfl, hbefore, hl⟩
          · exact .inl (List.forall_mem_cons.mpr ⟨hv, hall⟩)
          · exact .inr ⟨k :: before, l, after, rfl, List.forall_mem_cons.mpr ⟨hv, hbefore⟩, hl⟩
      · exact .inr (hhere (.inr (.inr ⟨v, hv, hbool⟩)))
    · exact .inr (hhere (.inr (.inl hdenied)))

/-- A chain evaluates the conditions of its links, in their order and in the environment that it
starts in, up to the first that is met, and then the body of that link. If none is met, it evaluates
all of them, and then what stands behind the last link. If one of them fails or is no truth value,
that is where the chain fails. What it evaluates besides is what these evaluate themselves. -/
theorem chain_chooses (host : Host) (rounds : Nat) (c : Conditional) (s : State) :
    host.Chooses rounds c s where
  met {before l after} hlinks hbefore h := by
    refine course_append hlinks hbefore fun d t hd ht _ => ?_
    obtain ⟨otherwise, rfl, hw, -⟩ := eq_of_links hd
    obtain ⟨u, hu, henv⟩ := Host.Gives.eval (ht ▸ h)
    exact ⟨u, course_met hw henv hu⟩
  unmet h := by
    rcases List.eq_nil_or_concat c.links with hnone | ⟨before, l, hlinks⟩
    · rw [hnone]
      exact ⟨s, course_loop hnone s⟩
    · rw [List.concat_eq_append] at hlinks
      rw [hlinks] at h ⊢
      have hbefore : ∀ k ∈ before, host.Declines rounds s.env k :=
        fun k hk => h k (List.mem_append_left _ hk)
      have hl : host.Declines rounds s.env l :=
        h l (List.mem_append_right _ (List.mem_singleton_self l))
      refine course_append (r := fun u => match c.fallback with
        | none => (.ok .null, u)
        | some n => eval host rounds n u) hlinks hbefore fun d t hd ht hfallback => ?_
      obtain ⟨otherwise, rfl, hw, hlast⟩ := eq_of_links hd
      obtain ⟨u, hu, henv⟩ := Host.Gives.eval (ht ▸ hl)
      rw [← hfallback, fallback_link hw]
      cases otherwise with
      | absent | block b => exact ⟨u, course_unmet hw hu henv nofun⟩
      | chain d => exact ⟨u, course_cons hw hu rfl henv (course_loop hlast u)⟩
  fails {before l after f} hlinks hbefore h := by
    refine course_append hlinks hbefore fun d t hd ht _ => ?_
    obtain ⟨otherwise, rfl, hw, -⟩ := eq_of_links hd
    obtain ⟨u, hu, henv⟩ := Host.Denies.eval (ht ▸ h)
    obtain ⟨sp, hplace⟩ := place_expr l.guard.condition
    have hsettled : f.Settled := (lands_of_failure hu).mp (settled_of_span hplace t)
    exact ⟨u, course_stops hw (congrArg Prod.snd hu) henv (check_of_failure hu)
      (leaving_of_settled hsettled _)⟩
  notBoolean {before l after v} hlinks hbefore h hv := by
    refine course_append hlinks hbefore fun d t hd ht _ => ?_
    obtain ⟨otherwise, rfl, hw, -⟩ := eq_of_links hd
    obtain ⟨u, hu, henv⟩ := Host.Gives.eval (ht ▸ h)
    exact ⟨u, course_stops hw (congrArg Prod.snd hu) henv (check_of_kind hu hv)
      (leaving_notBoolean _ _)⟩
  cases := exists_first c.links

end

/-- The second link is the first that is met, so the condition of the third is not looked at. -/
example :
    ((Setting.mk .standard 1).runSource Registry.standard.environment
      "if 1 < 0 \x7b\x7d else unless false \x7bPrint('b')\x7d else if y \x7b\x7d").output =
      "b\n" := by
  decide +kernel

end Scriptlet
