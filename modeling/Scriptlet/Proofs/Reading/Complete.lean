import Scriptlet.Proofs.Productions
import Scriptlet.Proofs.Reading.Sound
/-!
# Reading what derives

Tokens that derive a program are read to their end. For each rule there is one way in which a
reading gets over its tokens: an expression is taken as an operand, a list of arguments up to the
parenthesis that closes it, a line as one more statement of its scope. Main statement: a derivation
of a program is read, and its tree is the tree of what is read (`Progress.readAll_of_derives`).
-/

namespace Scriptlet.Source

/-! ## Operators that wait -/

namespace Pending

/-- Nothing waits on a rule's level or on one that binds more tightly. -/
def Clear : Rule → Pending → Prop
  | .expression, p => p = .none
  | .sum, p => p = ⟨p.comparison, .none, .none, []⟩
  | .product, p => p = ⟨p.comparison, p.sum, .none, []⟩
  | _, _ => True

/-- Whether an operator of a level may follow what derives from a rule. -/
def Follows (level : Level) : Rule → Prop
  | .expression => level = .comparison
  | .sum => level ≠ .product
  | _ => True

/-- Two operands, each behind operators of its own, that what may follow a rule takes alike. -/
def Alike (r : Rule) (p : Pending) (o : Operand) (q : Pending) (o' : Operand) : Prop :=
  p.toComparison o = q.toComparison o' ∧
    ∀ level word, Follows level r → p.push o level word = q.push o' level word

theorem Alike.refl (r : Rule) (p : Pending) (o : Operand) : Alike r p o p o :=
  ⟨rfl, fun _ _ _ => rfl⟩

theorem follows_inner {k level : Level} (h : Follows k level.rule) : Follows k level.inner := by
  cases level with
  | comparison =>
    obtain rfl : k = .comparison := h
    show Level.comparison ≠ .product
    decide
  | sum => trivial
  | product => trivial

theorem Alike.outer {level : Level} {p q : Pending} {a b : Operand}
    (h : Alike level.inner p a q b) : Alike level.rule p a q b :=
  ⟨h.1, fun k word hk => h.2 k word (follows_inner hk)⟩

theorem Alike.trans {r : Rule} {p q s : Pending} {a b c : Operand} (h : Alike r p a q b)
    (h' : Alike r q b s c) : Alike r p a s c :=
  ⟨h.1.trans h'.1, fun level word hl => (h.2 level word hl).trans (h'.2 level word hl)⟩

theorem Clear.inner {level : Level} {p : Pending} (h : p.Clear level.rule) :
    p.Clear level.inner := by
  cases level with
  | comparison =>
    obtain rfl : p = .none := h
    exact rfl
  | sum =>
    have hp : p = ⟨p.comparison, .none, .none, []⟩ := h
    rw [hp]
    exact rfl
  | product => trivial

theorem clear_push (p : Pending) (o : Operand) (level : Level) (word : Word) :
    (p.push o level word).Clear level.inner := by
  cases level with
  | comparison => rfl
  | sum => rfl
  | product => trivial

/-- An operand behind an operator acts as the expression of both. -/
theorem alike_join {level : Level} {p : Pending} (h : p.Clear level.rule) (lhs rhs : Operand)
    (word : Word) :
    Alike level.rule p (join level (some (lhs, word)) rhs) (p.push lhs level word) rhs := by
  cases level with
  | comparison =>
    obtain rfl : p = .none := h
    refine ⟨rfl, fun level word hl => ?_⟩
    obtain rfl : level = .comparison := hl
    rfl
  | sum =>
    have hp : p = ⟨p.comparison, .none, .none, []⟩ := h
    rw [hp]
    refine ⟨rfl, fun level word hl => ?_⟩
    cases level with
    | comparison => rfl
    | sum => rfl
    | product => exact absurd rfl hl
  | product =>
    have hp : p = ⟨p.comparison, p.sum, .none, []⟩ := h
    rw [hp]
    refine ⟨rfl, fun level word _ => ?_⟩
    cases level <;> rfl

theorem alike_negate (r : Rule) (p : Pending) (sign : Span) (o : Operand) :
    Alike r p ⟨.negate o.expr (sign.to o.outer), sign.to o.outer⟩
      { p with negations := sign :: p.negations } o := by
  refine ⟨rfl, fun level word _ => ?_⟩
  cases level <;> rfl

end Pending

/-! ## Expressions -/

/-- The same call, where an argument has to follow others. -/
def Expecting.resume (x : Expecting) (before : List Expr) : Expecting :=
  match x.around, x.purpose with
  | (.argument callee _, pending) :: around, purpose =>
    ⟨purpose, (.argument callee before, pending) :: around, .none⟩
  | [], .argument callee _ => ⟨.argument callee before, [], .none⟩
  | around, purpose => ⟨purpose, around, .none⟩

namespace Progress

def on (p : Progress) (point : Point) : Progress := { p with point := point }

variable {p q : Progress} {x : Expecting} {o : Operand} {name : Option Word} {t : Token}
  {ts : List Token}

theorem readAll_cons (h : p.step t = some q) : p.readAll (t :: ts) = q.readAll ts := by
  rw [readAll, h]

theorem step_level {level : Level} (ht : t.terminal = level.terminal) :
    (p.on (.operator x o name)).step t =
      some (p.on (.operand { x with pending := x.pending.push o level (word t) } false)) := by
  cases level <;> simp only [step, on, stepOperator, ht, Level.terminal, level?]

/-- A token that neither opens a list of arguments nor is an operator. -/
theorem step_complete (hparen : t.terminal ≠ .leftParen) (hlevel : level? t.terminal = none) :
    (p.on (.operator x o name)).step t =
      (p.on (.operator x o name)).stepComplete x (x.pending.toComparison o) t := by
  unfold step stepOperator
  simp only [on]
  split
  · next h => exact absurd h hparen
  · rw [hlevel]

/-- Behind an argument, a comma asks for one more. -/
theorem stepComplete_comma {before : List Expr} (hx : x.before? = some before)
    (ht : t.terminal = .comma) (point : Point) :
    (p.on point).stepComplete x o t =
      some (p.on (.operand (x.resume (o.expr :: before)) false)) := by
  obtain ⟨purpose, around, pending⟩ := x
  unfold Expecting.before? at hx
  split at hx
  · next h =>
    cases hx
    simp only at h
    subst h
    simp only [stepComplete, ht, Expecting.resume, on]
  · next h h' =>
    cases hx
    simp only at h h'
    subst h h'
    simp only [stepComplete, ht, Expecting.resume, on]
  · cases hx

/-- Behind an argument, a parenthesis closes the call. -/
theorem stepComplete_close {before : List Expr} (hx : x.before? = some before)
    (ht : t.terminal = .rightParen) :
    p.stepComplete x o t = p.closeCall x (o.expr :: before) t := by
  obtain ⟨purpose, around, pending⟩ := x
  unfold Expecting.before? at hx
  split at hx
  · next h =>
    cases hx
    simp only at h
    subst h
    simp only [stepComplete, ht]
  · next h h' =>
    cases hx
    simp only at h h'
    subst h h'
    simp only [stepComplete, ht]
  · cases hx

theorem before?_resume {before : List Expr} (hx : x.before? = some before) (es : List Expr) :
    (x.resume es).before? = some es := by
  obtain ⟨purpose, around, pending⟩ := x
  unfold Expecting.before? at hx
  split at hx
  · next h =>
    simp only at h
    subst h
    rfl
  · next h h' =>
    simp only at h h'
    subst h h'
    rfl
  · cases hx

theorem pending_resume (es : List Expr) : (x.resume es).pending = .none := by
  unfold Expecting.resume
  split <;> rfl

/-- Closing a call depends on neither the arguments before the last one, the operators that wait
nor the point. -/
theorem closeCall_resume {before : List Expr} (hx : x.before? = some before) (es args : List Expr) :
    p.closeCall (x.resume es) args t = p.closeCall x args t := by
  obtain ⟨purpose, around, _⟩ := x
  unfold Expecting.before? at hx
  split at hx
  · next h =>
    simp only at h
    subst h
    rfl
  · next h h' =>
    simp only at h h'
    subst h h'
    rfl
  · cases hx

theorem closeCall_pending (args : List Expr) (pending : Pending) :
    p.closeCall { x with pending := pending } args t = p.closeCall x args t := by
  obtain ⟨purpose, around, _⟩ := x
  cases around with
  | nil => rfl
  | cons s around =>
    obtain ⟨s, _⟩ := s
    cases s <;> rfl

theorem closeCall_on (args : List Expr) (point : Point) :
    (p.on point).closeCall x args t = p.closeCall x args t := by
  obtain ⟨purpose, around, _⟩ := x
  cases around with
  | nil => rfl
  | cons s around =>
    obtain ⟨s, _⟩ := s
    cases s <;> rfl

def TakenAs (r : Rule) (ts : List Token) (ns : List Node) : Prop :=
  ∃ (e : Expr) (s : Span), ns = [e.toNode] ∧ spanOf ts = some s ∧
    ∀ (p : Progress) (x : Expecting) (closable : Bool), x.pending.Clear r →
      ∃ pending o name, (p.on (.operand x closable)).readAll ts =
          .ok (p.on (.operator { x with pending := pending } o name)) ∧
        Pending.Alike r x.pending ⟨e, s⟩ pending o

theorem taken_name (ht : t.Is .identifier) :
    TakenAs .atom [t] [.tree .identifier [(word t).toNode .identifier] (placeOf [t])] := by
  refine ⟨.name (word t), t.span, by rw [Expr.toNode]; rfl, spanOf_singleton t, ?_⟩
  intro p x closable _
  refine ⟨x.pending, ⟨.name (word t), t.span⟩, some (word t), ?_, .refl _ _ _⟩
  have hs : (p.on (.operand x closable)).step t =
      some (p.on (.operator x ⟨.name (word t), t.span⟩ (some (word t)))) := by
    simp only [step, on, stepOperand, ht.1]
  rw [readAll_cons hs]
  rfl

theorem taken_literal {kind : LiteralKind} (hk : literal? t.terminal = some kind) :
    TakenAs .atom [t] [.tree .constant t.nodes (placeOf [t])] := by
  rw [nodes_of_kind (literal_kind hk)]
  refine ⟨.literal kind (word t), t.span, by rw [Expr.toNode]; rfl, spanOf_singleton t, ?_⟩
  intro p x closable _
  refine ⟨x.pending, ⟨.literal kind (word t), t.span⟩, none, ?_, .refl _ _ _⟩
  have hs : (p.on (.operand x closable)).step t =
      some (p.on (.operator x ⟨.literal kind (word t), t.span⟩ none)) := by
    unfold literal? at hk
    split at hk
    case h_7 => cases hk
    all_goals
      next h =>
        cases hk
        simp only [step, on, stepOperand, h, literal?, Option.map_some]
  rw [readAll_cons hs]
  rfl

theorem taken_inner {level : Level} {ns : List Node} (h : TakenAs level.inner ts ns) :
    TakenAs level.rule ts ns := by
  obtain ⟨e, s, hns, hs, hread⟩ := h
  refine ⟨e, s, hns, hs, fun p x closable hx => ?_⟩
  obtain ⟨pending, o, name, hr, halike⟩ := hread p x closable hx.inner
  exact ⟨pending, o, name, hr, halike.outer⟩

theorem taken_binary {level : Level} {us : List Token} {ns ms : List Node}
    (hl : TakenAs level.rule ts ns) (ht : t.terminal = level.terminal)
    (hr : TakenAs level.inner us ms) :
    TakenAs level.rule (ts ++ t :: us) [.tree level.label
      (ns ++ (word t).toNode level.tokenKind :: ms) (placeOf (ts ++ t :: us))] := by
  obtain ⟨lhs, s, rfl, hs, hreadl⟩ := hl
  obtain ⟨rhs, s', rfl, hs', hreadr⟩ := hr
  have hx : spanOf (ts ++ t :: us) = some (s.to s') := by
    rw [spanOf_append hs (spanOf_cons_of_some t hs')]
    rfl
  refine ⟨.binary level lhs (word t) rhs (s.to s'), s.to s', ?_, hx, ?_⟩
  · rw [Expr.toNode, placeOf_eq hx]
    rfl
  · intro p x closable hclear
    obtain ⟨pl, ol, namel, hstepsl, hl⟩ := hreadl p x closable hclear
    have hpush : pl.push ol level (word t) = x.pending.push ⟨lhs, s⟩ level (word t) := by
      refine (hl.2 level (word t) ?_).symm
      cases level with
      | comparison => rfl
      | sum =>
        show Level.sum ≠ .product
        decide
      | product => trivial
    obtain ⟨pr, or, namer, hstepsr, hr⟩ :=
      hreadr p { x with pending := pl.push ol level (word t) } false
        (Pending.clear_push pl ol level (word t))
    refine ⟨pr, or, namer, ?_, ?_⟩
    · rw [readAll_append _ hstepsl, readAll_cons (step_level ht)]
      exact hstepsr
    · rw [hpush] at hr
      exact (Pending.alike_join hclear ⟨lhs, s⟩ ⟨rhs, s'⟩ (word t)).trans hr.outer

theorem taken_negate {ns : List Node} (ht : t.terminal = .negation) (h : TakenAs .atom ts ns) :
    TakenAs .atom (t :: ts) [.tree .negate ns (placeOf (t :: ts))] := by
  obtain ⟨e, s, rfl, hs, hread⟩ := h
  have hx := spanOf_cons_of_some t hs
  refine ⟨.negate e (t.span.to s), t.span.to s, by rw [Expr.toNode, placeOf_eq hx], hx, ?_⟩
  intro p x closable _
  have hstep : (p.on (.operand x closable)).step t = some (p.on (.operand { x with
      pending := { x.pending with negations := t.span :: x.pending.negations } } false)) := by
    simp only [step, on, stepOperand, ht]
  obtain ⟨pending, o, name, hr, halike⟩ := hread p { x with
    pending := { x.pending with negations := t.span :: x.pending.negations } } false trivial
  refine ⟨pending, o, name, ?_, (Pending.alike_negate .atom x.pending t.span ⟨e, s⟩).trans halike⟩
  rw [readAll_cons hstep]
  exact hr

theorem taken_paren {l r : Token} {ns : List Node} (hl : l.terminal = .leftParen)
    (h : TakenAs .expression ts ns) (hr : r.terminal = .rightParen) :
    TakenAs .atom (l :: (ts ++ [r])) ns := by
  obtain ⟨e, s, rfl, hs, hread⟩ := h
  refine ⟨e, l.span.to r.span, rfl, spanOf_between l r ts, ?_⟩
  intro p x closable _
  have hopen : (p.on (.operand x closable)).step l = some (p.on (.operand
      { x with around := (.paren l.span, x.pending) :: x.around, pending := .none } false)) := by
    simp only [step, on, stepOperand, hl]
  obtain ⟨pending, o, name, hsteps, halike⟩ := hread p
    { x with around := (.paren l.span, x.pending) :: x.around, pending := .none } false rfl
  refine ⟨x.pending, ⟨e, l.span.to r.span⟩, none, ?_, .refl _ _ _⟩
  have hwhole : pending.toComparison o = ⟨e, s⟩ := halike.1.symm
  have hclose := @step_complete p
    { x with around := (.paren l.span, x.pending) :: x.around, pending := pending } o name r
    (by rw [hr]; decide) (by rw [hr]; rfl)
  rw [hwhole] at hclose
  rw [readAll_cons hopen, readAll_append _ hsteps, readAll_cons (q := p.on (.operator x _ none))]
  · rfl
  · rw [hclose]
    simp only [stepComplete, hr, if_true, on]

/-! ## Calls -/

/-- Arguments behind the first one, each with a comma before it, up to the parenthesis that closes
their call. -/
theorem taken_arguments {us : List Token} {ms : List Node}
    (h : Repeats (NextArgument (TakenAs .expression)) us ms) :
    ∃ es, ms = Expr.toNodes es ∧
      ∀ (p q : Progress) (x : Expecting) (o : Operand) (name : Option Word) (before : List Expr)
        (r : Token), x.before? = some before → r.terminal = .rightParen →
        p.closeCall x (es.reverse ++ (x.pending.toComparison o).expr :: before) r = some q →
        (p.on (.operator x o name)).readAll (us ++ [r]) = .ok q := by
  induction h with
  | none =>
    refine ⟨[], rfl, fun p q x o name before r hx hr hclose => ?_⟩
    have hs := @step_complete p x o name r (by rw [hr]; decide) (by rw [hr]; rfl)
    rw [stepComplete_close hx hr, closeCall_on] at hs
    rw [List.reverse_nil, List.nil_append] at hclose
    rw [hclose] at hs
    rw [List.nil_append, readAll_cons hs]
    rfl
  | more h _ ih =>
    obtain ⟨c, vs, hc, ⟨e, s, rfl, _, hread⟩, rfl⟩ := h
    obtain ⟨es, rfl, hrest⟩ := ih
    refine ⟨e :: es, rfl, fun p q x o name before r hx hr hclose => ?_⟩
    have hs := @step_complete p x o name c (by rw [hc]; decide) (by rw [hc]; rfl)
    rw [stepComplete_comma hx hc] at hs
    obtain ⟨pending, o', name', hsteps, halike⟩ :=
      hread p (x.resume ((x.pending.toComparison o).expr :: before)) false (pending_resume _)
    rw [pending_resume] at halike
    have hwhole : pending.toComparison o' = ⟨e, s⟩ := halike.1.symm
    rw [List.cons_append, List.cons_append, readAll_cons hs, List.append_assoc,
      readAll_append _ hsteps]
    have hx' : { x.resume ((x.pending.toComparison o).expr :: before) with
        pending := pending }.before? = some ((x.pending.toComparison o).expr :: before) :=
      before?_resume hx _
    refine hrest p q _ o' name' _ r hx' hr ?_
    rw [closeCall_pending, closeCall_resume hx, hwhole]
    simpa only [List.reverse_cons, List.append_assoc, List.singleton_append] using hclose

def CallTaken (ts : List Token) (ns : List Node) : Prop :=
  ∃ (t l r : Token) (us : List Token) (args : List Expr), t.terminal = .identifier ∧
    l.terminal = .leftParen ∧ ts = t :: l :: (us ++ [r]) ∧
    ns = [.tree .functionCall ((word t).toNode .identifier :: Expr.toNodes args)
      (.span (t.span.to r.span))] ∧
    ∀ (p q : Progress) (x : Expecting), x.pending = .none → x.before? = some [] →
      p.closeCall x args.reverse r = some q →
      (p.on (.operand x true)).readAll (us ++ [r]) = .ok q

theorem callTaken_nil {l r : Token} (ht : t.terminal = .identifier) (hl : l.terminal = .leftParen)
    (hr : r.terminal = .rightParen) :
    CallTaken [t, l, r]
      [.tree .functionCall [(word t).toNode .identifier] (placeOf [t, l, r])] := by
  refine ⟨t, l, r, [], [], ht, hl, rfl, rfl, fun p q x _ _ hclose => ?_⟩
  have hs : (p.on (.operand x true)).step r = some q := by
    have hstep : (p.on (.operand x true)).step r = (p.on (.operand x true)).closeCall x [] r := by
      simp only [step, on, stepOperand, hr, if_true]
    rw [hstep, closeCall_on]
    exact hclose
  rw [List.nil_append, readAll_cons hs]
  rfl

theorem callTaken_arguments {l r : Token} {us vs : List Token} {ns ms : List Node}
    (ht : t.terminal = .identifier) (hl : l.terminal = .leftParen)
    (hr : r.terminal = .rightParen) (h : TakenAs .expression us ns)
    (hrest : Repeats (NextArgument (TakenAs .expression)) vs ms) :
    CallTaken (t :: l :: (us ++ vs ++ [r])) [.tree .functionCall
      ((word t).toNode .identifier :: (ns ++ ms)) (placeOf (t :: l :: (us ++ vs ++ [r])))] := by
  obtain ⟨e, s, rfl, _, hread⟩ := h
  obtain ⟨es, rfl, hreads⟩ := taken_arguments hrest
  have hplace : placeOf (t :: l :: (us ++ vs ++ [r])) = .span (t.span.to r.span) :=
    placeOf_eq (spanOf_between t r (l :: (us ++ vs)))
  refine ⟨t, l, r, us ++ vs, e :: es, ht, hl, rfl, ?_, fun p q x hpending hx hclose => ?_⟩
  · rw [hplace]
    rfl
  · obtain ⟨pending, o, name, hsteps, halike⟩ := hread p x true hpending
    have hwhole : pending.toComparison o = ⟨e, s⟩ := by
      rw [hpending] at halike
      exact halike.1.symm
    rw [List.append_assoc, readAll_append _ hsteps]
    have hx' : { x with pending := pending }.before? = some [] := hx
    refine hreads p q _ o name [] r hx' hr ?_
    rw [closeCall_pending, hwhole]
    simpa only [List.reverse_cons] using hclose

theorem taken_call {ns : List Node} (h : CallTaken ts ns) : TakenAs .atom ts ns := by
  obtain ⟨t, l, r, us, args, ht, hl, rfl, rfl, hread⟩ := h
  refine ⟨.call (word t) args (t.span.to r.span), t.span.to r.span, by rw [Expr.toNode],
    spanOf_between t r (l :: us), fun p x closable _ => ?_⟩
  refine ⟨x.pending, ⟨.call (word t) args (t.span.to r.span), t.span.to r.span⟩, none, ?_,
    .refl _ _ _⟩
  have hname : (p.on (.operand x closable)).step t =
      some (p.on (.operator x ⟨.name (word t), t.span⟩ (some (word t)))) := by
    simp only [step, on, stepOperand, ht]
  have hopen : (p.on (.operator x ⟨.name (word t), t.span⟩ (some (word t)))).step l =
      some (p.on (.operand { x with
        around := (.argument (word t) [], x.pending) :: x.around, pending := .none } true)) := by
    simp only [step, on, stepOperator, hl]
  rw [readAll_cons hname, readAll_cons hopen]
  refine hread p _ _ rfl rfl ?_
  simp only [closeCall, List.reverse_reverse]
  rfl

/-! ## Statements -/

/-- A token that neither goes on with an expression nor with a conditional. -/
def Parts (t : Token) : Prop :=
  t.terminal ≠ .leftParen ∧ t.terminal ≠ .elseWord ∧ level? t.terminal = none

/-- The statements of a scope are complete, whichever way the last one ends. -/
structure Rests (p : Progress) (scope : Scope) (outer : List (Opening × Scope)) (semicolon : Bool) :
    Prop where
  step : ∀ t, Parts t → p.step t = (Progress.mk scope outer (.line semicolon)).step t
  finish : p.finish = (Progress.mk scope outer (.line semicolon)).finish

variable {scope : Scope} {outer : List (Opening × Scope)} {semicolon : Bool}

theorem rests_line : (Progress.mk scope outer (.line semicolon)).Rests scope outer semicolon :=
  ⟨fun _ _ => rfl, rfl⟩

theorem stepLine_on (point : Point) :
    (p.on point).stepLine semicolon t = p.stepLine semicolon t := by
  unfold stepLine
  split
  · rfl
  · rfl
  · unfold closeBlock
    simp only [on]
    split <;> rfl
  · rfl

theorem rests_assign (target : Word) {e : Expr} {s : Span}
    (h : x.pending.toComparison o = ⟨e, s⟩) (hx : x.purpose = .assign target)
    (haround : x.around = []) :
    (p.on (.operator x o name)).Rests
      (p.scope.add (.assign target e (target.span.to s)) (target.span.to s)) p.outer true := by
  obtain ⟨purpose, around, pending⟩ := x
  subst hx haround
  constructor
  · intro t ht
    rw [step_complete ht.1 ht.2.2, h]
    exact stepLine_on (p := { p with scope := _ }) _
  · simp only [finish, on] at h ⊢
    rw [h]
    rfl

theorem rests_closed (arm : Arm) (arms : List Arm) :
    (p.on (.closed arm arms)).Rests (p.addArms .absent arm.body.span arm arms).scope p.outer
      false := by
  constructor
  · intro t ht
    simp only [step, on, stepClosed, ht.2.1, if_false]
    rfl
  · rfl

theorem Rests.readAll (h : p.Rests scope outer semicolon) (ht : Parts t) :
    p.readAll (t :: ts) = (Progress.mk scope outer (.line semicolon)).readAll (t :: ts) := by
  rw [Progress.readAll, Progress.readAll, h.step t ht]

/-- Tokens that are read as one more statement, which a semicolon may end or not. -/
def StatementTaken (mayEnd : Bool → Prop) (ts : List Token) (ns : List Node) : Prop :=
  ∃ (st : Statement) (s : Span), ns = [st.toNode] ∧ spanOf ts = some s ∧
    ∀ (p : Progress) scope outer semicolon, p.Rests scope outer semicolon →
      ∃ q semicolon', mayEnd semicolon' ∧ p.readAll ts = .ok q ∧
        q.Rests (scope.add st s) outer semicolon'

abbrev SimpleTaken : List Token → List Node → Prop := StatementTaken (· = true)

abbrev LineTaken : List Token → List Node → Prop := StatementTaken fun _ => True

theorem lineTaken_simple {ns : List Node} (h : SimpleTaken ts ns) : LineTaken ts ns := by
  obtain ⟨st, s, hns, hs, hread⟩ := h
  refine ⟨st, s, hns, hs, fun p scope outer semicolon hp => ?_⟩
  obtain ⟨q, semicolon', _, hr, hq⟩ := hread p scope outer semicolon hp
  exact ⟨q, semicolon', trivial, hr, hq⟩

theorem lineTaken_ended {ns : List Node} (h : SimpleTaken ts ns) (ht : t.terminal = .semicolon) :
    LineTaken (ts ++ [t]) ns := by
  obtain ⟨st, s, hns, hs, hread⟩ := h
  refine ⟨st, s.to t.span, hns, spanOf_snoc t hs, fun p scope outer semicolon hp => ?_⟩
  obtain ⟨q, _, rfl, hr, hq⟩ := hread p scope outer semicolon hp
  have hparts : Parts t := by
    rw [Parts, ht]
    exact ⟨by decide, by decide, rfl⟩
  refine ⟨⟨scope.add st (s.to t.span), outer, .line false⟩, false, trivial, ?_, rests_line⟩
  rw [readAll_append _ hr, hq.readAll hparts,
    readAll_cons (q := ⟨(scope.add st s).reach t.span, outer, .line false⟩)]
  · rw [readAll]
    cases he : scope.extent with
    | none => simp only [Scope.add, Scope.reach, he]
    | some e => simp only [Scope.add, Scope.reach, he]; rfl
  · simp only [step, stepLine, ht, if_true]

theorem simpleTaken_assign {a : Token} {ns : List Node} (ht : t.terminal = .identifier)
    (ha : a.terminal = .assign) (h : TakenAs .expression ts ns) :
    SimpleTaken (t :: a :: ts)
      [.tree .assignment ((word t).toNode .identifier :: ns) (placeOf (t :: a :: ts))] := by
  obtain ⟨e, s, rfl, hs, hread⟩ := h
  have hx : spanOf (t :: a :: ts) = some (t.span.to s) := by
    rw [spanOf_cons_of_some t (spanOf_cons_of_some a hs)]
    rfl
  refine ⟨.assign (word t) e (t.span.to s), t.span.to s, ?_, hx, ?_⟩
  · rw [Statement.toNode, placeOf_eq hx]
  · intro p scope outer semicolon hp
    have hparts : Parts t := by
      rw [Parts, ht]
      exact ⟨by decide, by decide, rfl⟩
    obtain ⟨pending, o, name, hr, halike⟩ :=
      hread ⟨scope, outer, .line false⟩ (.start (.assign (word t))) false rfl
    have hrests := @rests_assign ⟨scope, outer, .line false⟩ ⟨.assign (word t), [], pending⟩ o name
      (word t) e s halike.1.symm rfl rfl
    refine ⟨_, true, rfl, ?_, hrests⟩
    rw [hp.readAll hparts, readAll_cons (q := ⟨scope, outer, .named (word t)⟩),
      readAll_cons (q := ⟨scope, outer, .operand (.start (.assign (word t))) false⟩)]
    · exact hr
    · simp only [step, stepNamed, ha]
    · simp only [step, stepLine, ht]

theorem simpleTaken_call {ns : List Node} (h : CallTaken ts ns) : SimpleTaken ts ns := by
  obtain ⟨t, l, r, us, args, ht, hl, rfl, rfl, hread⟩ := h
  refine ⟨.call (word t) args (t.span.to r.span), t.span.to r.span, by rw [Statement.toNode],
    spanOf_between t r (l :: us), fun p scope outer semicolon hp => ?_⟩
  have hparts : Parts t := by
    rw [Parts, ht]
    exact ⟨by decide, by decide, rfl⟩
  refine ⟨_, true, rfl, ?_, rests_line⟩
  rw [hp.readAll hparts, readAll_cons (q := ⟨scope, outer, .named (word t)⟩),
    readAll_cons (q := ⟨scope, outer, .operand (.start (.argument (word t) [])) true⟩)]
  · refine hread ⟨scope, outer, .line false⟩ _ (.start (.argument (word t) [])) rfl rfl ?_
    simp only [closeCall, Expecting.start, List.reverse_reverse]
    rfl
  · simp only [step, stepNamed, hl]
  · simp only [step, stepLine, ht]

/-! ## Blocks -/

end Progress

def Scope.over (scope : Scope) (sts : List Statement) (ts : List Token) : Scope :=
  ⟨sts.reverse ++ scope.done, match spanOf ts with
    | none => scope.extent
    | some s => (scope.reach s).extent⟩

theorem add_over {scope : Scope} {st : Statement} {sts : List Statement} {ts us : List Token}
    {s : Span} (hs : spanOf ts = some s) :
    (scope.add st s).over sts us = scope.over (st :: sts) (ts ++ us) := by
  have hdone : sts.reverse ++ st :: scope.done = (st :: sts).reverse ++ scope.done := by
    rw [List.reverse_cons, List.append_assoc, List.singleton_append]
  cases hu : spanOf us with
  | none =>
    obtain rfl := spanOf_eq_none.mp hu
    rw [List.append_nil, Scope.over, Scope.over, hs, hu, ← hdone]
    rfl
  | some s' =>
    rw [Scope.over, Scope.over, hu, spanOf_append hs hu, ← hdone]
    cases he : scope.extent with
    | none => simp only [Scope.add, Scope.reach, he]
    | some e => simp only [Scope.add, Scope.reach, he]; rfl

namespace Progress

def LinesTaken (ts : List Token) (sts : List Statement) : Prop :=
  ∀ (p : Progress) scope outer semicolon, p.Rests scope outer semicolon →
    ∃ q semicolon', p.readAll ts = .ok q ∧ q.Rests (scope.over sts ts) outer semicolon'

theorem linesTaken {ts : List Token} {ns : List Node} (h : Repeats LineTaken ts ns) :
    ∃ sts, ns = Statement.toNodes sts ∧ LinesTaken ts sts := by
  induction h with
  | none =>
    refine ⟨[], by rw [Statement.toNodes], fun p scope outer semicolon hp => ?_⟩
    exact ⟨p, semicolon, rfl, hp⟩
  | more h _ ih =>
    obtain ⟨st, s, rfl, hs, hread⟩ := h
    obtain ⟨sts, rfl, hreads⟩ := ih
    refine ⟨st :: sts, by rw [Statement.toNodes]; rfl, fun p scope outer semicolon hp => ?_⟩
    obtain ⟨q, sc, _, hr, hq⟩ := hread p scope outer semicolon hp
    obtain ⟨q', sc', hr', hq'⟩ := hreads q _ outer sc hq
    rw [add_over hs] at hq'
    exact ⟨q', sc', by rw [readAll_append _ hr, hr'], hq'⟩

def BlockTaken (ts : List Token) (ns : List Node) : Prop :=
  ∃ (l r : Token) (us : List Token) (sts : List Statement), l.terminal = .leftBrace ∧
    ts = l :: (us ++ [r]) ∧ ns = [(Block.mk sts (l.span.to r.span)).toNode] ∧
    ∀ opening scope outer q,
      (Progress.mk ⟨sts.reverse, none⟩ ((opening, scope) :: outer) (.line false)).closeBlock r =
        some q →
      (Progress.mk .empty ((opening, scope) :: outer) (.line false)).readAll (us ++ [r]) = .ok q

theorem blockTaken {l r : Token} {ns : List Node} (hl : l.terminal = .leftBrace)
    (h : Repeats LineTaken ts ns) (hr : r.terminal = .rightBrace) :
    BlockTaken (l :: (ts ++ [r])) [.tree .block ns (placeOf (l :: (ts ++ [r])))] := by
  obtain ⟨sts, rfl, hread⟩ := linesTaken h
  refine ⟨l, r, ts, sts, hl, rfl, ?_, fun opening scope outer q hclose => ?_⟩
  · rw [Block.toNode, placeOf_eq (spanOf_between l r ts)]
  · obtain ⟨q', semicolon, hq', hrests⟩ :=
      hread _ _ _ _ (@rests_line .empty ((opening, scope) :: outer) false)
    have hparts : Parts r := by
      rw [Parts, hr]
      exact ⟨by decide, by decide, rfl⟩
    rw [readAll_append _ hq', hrests.readAll hparts, readAll_cons (q := q)]
    · rfl
    · simp only [step, stepLine, hr]
      have hdone : (Scope.empty.over sts ts).done = sts.reverse := List.append_nil _
      rw [← hclose]
      cases opening with
      | body arms guard brace => simp only [closeBlock, hdone]
      | branch arm arms brace =>
        simp only [closeBlock, hdone]
        rfl

end Progress

/-! ## Conditionals -/

/-- A conditional in the else branches of arms, the last one first. -/
def Conditional.wrap (c : Conditional) : List Arm → Conditional
  | [] => c
  | arm :: arms => wrap (.mk arm.guard arm.body (.chain c) (arm.guard.span.to c.span)) arms

theorem ofArms_eq_wrap (tail : Otherwise) (last : Span) (arm : Arm) (arms : List Arm) :
    Conditional.ofArms tail last arm arms =
      (Conditional.mk arm.guard arm.body tail (arm.guard.span.to last)).wrap arms := by
  induction arms generalizing tail arm with
  | nil => rfl
  | cons earlier arms ih => rw [Conditional.ofArms, ih, Conditional.wrap]; rfl

namespace Progress

variable {p : Progress} {t : Token} {ts : List Token}

/-- The scope with a conditional that ends the chain of some arms. -/
def chained (scope : Scope) (c : Conditional) (arms : List Arm) : Scope :=
  scope.add (.conditional (c.wrap arms)) (c.wrap arms).span

theorem addArms_eq (tail : Otherwise) (last : Span) (arm : Arm) (arms : List Arm) :
    p.addArms tail last arm arms = ⟨chained p.scope
      (.mk arm.guard arm.body tail (arm.guard.span.to last)) arms, p.outer, .line false⟩ := by
  rw [addArms, ofArms_eq_wrap]
  rfl

/-- A conditional, which ends the chain of the arms before it. -/
def ConditionalTaken (ts : List Token) (ns : List Node) : Prop :=
  ∃ (k : Token) (w : Keyword) (us : List Token) (c : Conditional), keyword? k.terminal = some w ∧
    ts = k :: us ∧ ns = [c.toNode] ∧ spanOf ts = some c.span ∧
    ∀ (p : Progress) (arms : List Arm), ∃ q,
      (p.on (.operand (.start (.guard arms w k.span)) false)).readAll us = .ok q ∧
        q.Rests (chained p.scope c arms) p.outer false

def ElseTaken (ts : List Token) (ns : List Node) : Prop :=
  ∃ (tail : Otherwise) (s : Span), ns = tail.toNodes ∧ spanOf ts = some s ∧
    ∀ (p : Progress) (arm : Arm) (arms : List Arm), ∃ q,
      (p.on (.branch arm arms)).readAll ts = .ok q ∧
        q.Rests (chained p.scope (.mk arm.guard arm.body tail (arm.guard.span.to s)) arms)
          p.outer false

theorem beginGuard_eq {w : Keyword} (h : keyword? t.terminal = some w) (arms : List Arm)
    (point : Point) : (p.on point).beginGuard arms t =
      some (p.on (.operand (.start (.guard arms w t.span)) false)) := by
  rw [beginGuard, h]
  rfl

theorem lineTaken_conditional {ns : List Node} (h : ConditionalTaken ts ns) : LineTaken ts ns := by
  obtain ⟨k, w, us, c, hk, rfl, rfl, hs, hread⟩ := h
  refine ⟨.conditional c, c.span, by rw [Statement.toNode], hs, ?_⟩
  intro p scope outer semicolon hp
  have hparts : Parts k := by
    rw [Parts, keyword_terminal hk]
    cases w <;> exact ⟨by decide, by decide, rfl⟩
  obtain ⟨q, hq, hrests⟩ := hread ⟨scope, outer, .line false⟩ []
  refine ⟨q, false, trivial, ?_, hrests⟩
  rw [hp.readAll hparts, readAll_cons
    (q := ⟨scope, outer, .operand (.start (.guard [] w k.span)) false⟩)]
  · exact hq
  · have hline : (Progress.mk scope outer (.line semicolon)).step k =
        (Progress.mk scope outer (.line semicolon)).beginGuard [] k := by
      have hkey := keyword_terminal hk
      cases w <;> simp only [step, stepLine, hkey, Keyword.terminal]
    rw [hline, beginGuard, hk]
    rfl

theorem elseTaken_chain {ns : List Node} (h : ConditionalTaken ts ns) :
    ElseTaken ts [.tree .elseBlock ns (placeOf ts)] := by
  obtain ⟨k, w, us, c, hk, rfl, rfl, hs, hread⟩ := h
  refine ⟨.chain c, c.span, by rw [Otherwise.toNodes, placeOf_eq hs], hs, fun p arm arms => ?_⟩
  obtain ⟨q, hq, hrests⟩ := hread p (arm :: arms)
  refine ⟨q, ?_, hrests⟩
  rw [readAll_cons (q := p.on (.operand (.start (.guard (arm :: arms) w k.span)) false))]
  · exact hq
  · have hbrace : k.terminal ≠ .leftBrace := by
      rw [keyword_terminal hk]
      cases w <;> decide
    rw [← beginGuard_eq hk (arm :: arms) (.branch arm arms)]
    simp only [step, on, stepBranch, hbrace, if_false]

theorem elseTaken_block {ns : List Node} (h : BlockTaken ts ns) :
    ElseTaken ts [.tree .elseBlock ns (placeOf ts)] := by
  obtain ⟨l, r, us, sts, hl, rfl, rfl, hread⟩ := h
  have hs := spanOf_between l r us
  refine ⟨.block (.mk sts (l.span.to r.span)), l.span.to r.span,
    by rw [Otherwise.toNodes, placeOf_eq hs]; rfl, hs, fun p arm arms => ?_⟩
  refine ⟨_, ?_, rests_line⟩
  rw [readAll_cons (q := p.openBlock (.branch arm arms l.span))]
  · refine hread _ _ _ _ ?_
    simp only [closeBlock, addArms_eq, List.reverse_reverse]
    rfl
  · simp only [step, on, stepBranch, hl, if_true]
    rfl

theorem conditionalTaken {k : Token} {w : Keyword} {us vs ws : List Token} {ns ms os : List Node}
    (hk : k.Is w.terminal) (hc : TakenAs .expression us ns) (hb : BlockTaken vs ms)
    (ho : ws = [] ∧ os = [] ∨ ∃ t ts, t.terminal = .elseWord ∧ ElseTaken ts os ∧ ws = t :: ts) :
    ConditionalTaken (k :: (us ++ (vs ++ ws))) [.tree w.label (k.nodes ++ (ns ++ (ms ++ os)))
      (placeOf (k :: (us ++ (vs ++ ws))))] := by
  obtain ⟨e, s, rfl, hs, hreade⟩ := hc
  obtain ⟨l, r, bs, sts, hl, rfl, rfl, hreadb⟩ := hb
  have hkey : keyword? k.terminal = some w := by
    rw [hk.1]
    cases w <;> rfl
  rw [keyword_nodes hk]
  -- Up to the brace that closes the body.
  have hclosed : ∀ (p : Progress) (arms : List Arm) (us' : List Token),
      (p.on (.operand (.start (.guard arms w k.span)) false)).readAll
          (us ++ (l :: (bs ++ [r]) ++ us')) =
        (p.on (.closed ⟨⟨w, k.span, e⟩, .mk sts (l.span.to r.span)⟩ arms)).readAll us' := by
    intro p arms us'
    obtain ⟨pending, o, name, hr, halike⟩ :=
      hreade p (.start (.guard arms w k.span)) false rfl
    have hopen := @step_complete p ⟨.guard arms w k.span, [], pending⟩ o name l
      (by rw [hl]; decide) (by rw [hl]; rfl)
    have hwhole : pending.toComparison o = ⟨e, s⟩ := halike.1.symm
    rw [hwhole] at hopen
    rw [readAll_append _ hr, List.cons_append,
      readAll_cons (q := p.openBlock (.body arms ⟨w, k.span, e⟩ l.span))]
    · refine readAll_append _ (hreadb _ _ _ _ ?_)
      simp only [closeBlock, List.reverse_reverse]
      rfl
    · refine hopen.trans ?_
      simp only [stepComplete, hl, if_true]
      rfl
  have hlast : spanOf (us ++ (l :: (bs ++ [r]))) = some (s.to (l.span.to r.span)) :=
    spanOf_append hs (spanOf_between l r bs)
  rcases ho with ⟨rfl, rfl⟩ | ⟨t, ts, ht, ⟨tail, s', rfl, hs', hreado⟩, rfl⟩
  · have hx : spanOf (k :: (us ++ (l :: (bs ++ [r]) ++ []))) = some (k.span.to r.span) := by
      rw [List.append_nil, spanOf_cons_of_some k hlast]
      rfl
    refine ⟨k, w, _, .mk ⟨w, k.span, e⟩ (.mk sts (l.span.to r.span)) .absent (k.span.to r.span),
      hkey, rfl, ?_, hx, fun p arms => ?_⟩
    · rw [Conditional.toNode, Otherwise.toNodes, placeOf_eq hx]
      rfl
    · refine ⟨_, hclosed p arms [], ?_⟩
      have hrests := @rests_closed p ⟨⟨w, k.span, e⟩, .mk sts (l.span.to r.span)⟩ arms
      rwa [addArms_eq] at hrests
  · have hx : spanOf (k :: (us ++ (l :: (bs ++ [r]) ++ t :: ts))) = some (k.span.to s') := by
      rw [← List.append_assoc,
        spanOf_cons_of_some k (spanOf_append hlast (spanOf_cons_of_some t hs'))]
      rfl
    refine ⟨k, w, _, .mk ⟨w, k.span, e⟩ (.mk sts (l.span.to r.span)) tail (k.span.to s'),
      hkey, rfl, ?_, hx, fun p arms => ?_⟩
    · rw [Conditional.toNode, placeOf_eq hx]
      rfl
    · obtain ⟨q, hq, hrests⟩ := hreado p ⟨⟨w, k.span, e⟩, .mk sts (l.span.to r.span)⟩ arms
      refine ⟨q, ?_, hrests⟩
      rw [hclosed p arms, readAll_cons (q := p.on (.branch _ arms))]
      · exact hq
      · simp only [step, on, stepClosed, ht, if_true]

/-! ## Programs -/

def ProgramTaken (ts : List Token) (ns : List Node) : Prop :=
  ∃ p program, start.readAll ts = .ok p ∧ p.finish = some program ∧ ns = [program.toNode]

theorem programTaken {ns : List Node} (h : Repeats LineTaken ts ns) :
    ProgramTaken ts [.tree .program ns (placeOf ts)] := by
  obtain ⟨sts, rfl, hread⟩ := linesTaken h
  obtain ⟨p, semicolon, hp, hrests⟩ := hread start .empty [] false rests_line
  refine ⟨p, ⟨sts, spanOf ts⟩, hp, ?_, ?_⟩
  · rw [hrests.finish]
    simp only [finish, Scope.over, List.isEmpty_nil, if_true]
    cases hs : spanOf ts with
    | none => simp [Scope.empty]
    | some s => simp [Scope.empty, Scope.reach]
  · unfold Program.toNode placeOf
    rfl

/-- The way in which the tokens of each rule are taken. -/
def Taken : Rule → List Token → List Node → Prop
  | .program => ProgramTaken
  | .line => LineTaken
  | .statement => LineTaken
  | .block => BlockTaken
  | .assignment => SimpleTaken
  | .functionCall => CallTaken
  | .ifBlock | .whileBlock => ConditionalTaken
  | .elseBlock => ElseTaken
  | .constant => TakenAs .atom
  | r => TakenAs r

theorem length_of_taken {r : Rule} {ns : List Node} (h : TakenAs r ts ns) : ns.length = 1 := by
  obtain ⟨e, _, rfl, _⟩ := h
  rfl

/-- A rule that hands on an operand. -/
theorem apply_single {r : Rule} {ns : List Node} (l : Label) (h : TakenAs r ts ns) :
    (Shaping.spliceSingle l).apply ts ns = ns := by
  rw [Shaping.apply, if_pos (length_of_taken h)]

theorem taken_operators {level : Level} {p : Production} (mem : p ∈ level.rule.productions)
    {ns : List Node} (h : p.phrase.Holds Taken ts ns) :
    TakenAs level.rule ts (p.shaping.apply ts ns) := by
  have hrule : Taken level.rule = TakenAs level.rule := by cases level <;> rfl
  have hinner : Taken level.inner = TakenAs level.inner := by cases level <;> rfl
  have hparts := parts_operators mem h
  rw [hrule, hinner] at hparts
  rcases hparts with ⟨l, hp, h⟩ | ⟨hp, us, vs, t, ks, ms, hl, ht, hr, rfl, rfl⟩
  · rw [hp, apply_single l h]
    exact taken_inner h
  · rw [hp]
    exact taken_binary hl ht.1 hr

theorem taken_conditional {a b : Terminal} {l : Label} {ns : List Node}
    (hwords : ∀ k, k = a ∨ k = b → ∃ w : Keyword, w.terminal = k ∧ w.label = l)
    (h : (Phrase.conditional a b).Holds Taken ts ns) :
    ConditionalTaken ts [.tree l ns (placeOf ts)] := by
  obtain ⟨k, us, vs, ws, ks, ms, os, hword, hs, hc, hb, ho, rfl, rfl⟩ := parts_conditional h
  obtain ⟨w, hw, rfl⟩ := hwords k.terminal hword
  exact conditionalTaken ⟨hw.symm, hs⟩ hc hb ho

theorem taken_functionCall {ns : List Node} (h : (Phrase.seq (.terminal .identifier)
      (.seq (.terminal .leftParen) (.seq (.optional .arguments) (.terminal .rightParen)))).Holds
        Taken ts ns) : CallTaken ts [.tree .functionCall ns (placeOf ts)] := by
  obtain ⟨t, l, r, us, ms, ht, hl, hr, hargs, rfl, rfl⟩ := parts_call h
  rcases hargs with ⟨rfl, rfl⟩ | ⟨us, ks, vs, ms, he, hrest, rfl, rfl⟩
  · exact callTaken_nil ht hl hr
  · exact callTaken_arguments ht hl hr he hrest

theorem taken_atom {p : Production} (mem : p ∈ Rule.atom.productions) {ns : List Node}
    (h : p.phrase.Holds Taken ts ns) : TakenAs .atom ts (p.shaping.apply ts ns) := by
  simp only [Rule.productions, List.mem_cons, List.not_mem_nil, or_false] at mem
  rcases mem with rfl | rfl | rfl | rfl | rfl
  · have hc : TakenAs .atom ts ns := h
    rw [apply_single _ hc]
    exact hc
  · obtain ⟨t, ht, hs, rfl, rfl⟩ := h
    rw [nodes_of_kind (by rw [ht]; rfl)]
    exact taken_name ⟨ht, hs⟩
  · have hc : TakenAs .atom ts ns := taken_call h
    rw [apply_single _ hc]
    exact hc
  · obtain ⟨t, us, ht, ho, rfl⟩ := parts_negate h
    exact taken_negate ht ho
  · obtain ⟨l, r, us, hl, hr, he, rfl⟩ := parts_paren h
    have hc := taken_paren hl he hr
    rw [apply_single _ hc]
    exact hc

theorem taken_production (r : Rule) (p : Production) (mem : p ∈ r.productions) (ts : List Token)
    (ns : List Node) (h : p.phrase.Holds Taken ts ns) : Taken r ts (p.shaping.apply ts ns) := by
  cases r with
  | program =>
    obtain rfl := List.mem_singleton.mp mem
    exact programTaken h
  | line =>
    simp only [Rule.productions, List.mem_cons, List.not_mem_nil, or_false] at mem
    rcases mem with rfl | rfl | rfl
    · exact h
    · exact lineTaken_conditional h
    · exact lineTaken_conditional h
  | statement =>
    obtain rfl := List.mem_singleton.mp mem
    obtain ⟨us, hsimple, hend⟩ := parts_statement h
    have hsimple : SimpleTaken us ns := by
      rcases hsimple with h | h
      · exact h
      · exact simpleTaken_call h
    rcases hend with rfl | ⟨t, ht, rfl⟩
    · exact lineTaken_simple hsimple
    · exact lineTaken_ended hsimple ht
  | block =>
    obtain rfl := List.mem_singleton.mp mem
    obtain ⟨l, r, us, hl, hr, hlines, rfl⟩ := parts_block h
    exact blockTaken hl hlines hr
  | assignment =>
    obtain rfl := List.mem_singleton.mp mem
    obtain ⟨t, a, us, ms, ht, ha, he, rfl, rfl⟩ := parts_assignment h
    exact simpleTaken_assign ht ha he
  | functionCall =>
    obtain rfl := List.mem_singleton.mp mem
    exact taken_functionCall h
  | ifBlock =>
    obtain rfl := List.mem_singleton.mp mem
    exact taken_conditional ifBlock_words h
  | whileBlock =>
    obtain rfl := List.mem_singleton.mp mem
    exact taken_conditional whileBlock_words h
  | elseBlock =>
    simp only [Rule.productions, List.mem_cons, List.not_mem_nil, or_false] at mem
    rcases mem with rfl | rfl | rfl
    · exact elseTaken_block h
    · exact elseTaken_chain h
    · exact elseTaken_chain h
  | expression => exact @taken_operators _ .comparison p mem ns h
  | sum => exact @taken_operators _ .sum p mem ns h
  | product => exact @taken_operators _ .product p mem ns h
  | atom => exact taken_atom mem h
  | constant =>
    obtain ⟨hp, t, kind, hk, rfl, rfl⟩ := parts_constant mem h
    rw [hp]
    exact taken_literal hk

/-- Tokens that derive a program are read in full, and give its tree. -/
theorem readAll_of_derives {n : Node} (h : Derives (.rule .program) ts [n]) :
    ∃ p program, start.readAll ts = .ok p ∧ p.finish = some program ∧ program.toNode = n := by
  obtain ⟨p, program, hread, hfinish, hn⟩ := h.holds taken_production
  exact ⟨p, program, hread, hfinish, (List.singleton_inj.mp hn).symm⟩

end Progress

end Scriptlet.Source
