import Scriptlet.Proofs.Reading.Building
/-!
# What has been read

The invariant of reading: how the tokens taken so far are shared out among the parts of a
`Progress`. Every open scope, operator, argument list and chain of conditionals stands for a piece
of the tokens, and the pieces that are complete have derivations. Main statements: a step keeps the
invariant (`Progress.Reads.step`), and a progress that may end has read a derivation of its program
(`Progress.Reads.finish`).
-/

namespace Scriptlet.Source

/-! ## Operators and operands -/

def Operand.Reads (r : Rule) (o : Operand) (ts : List Token) : Prop :=
  Derives (.rule r) ts [o.expr.toNode] ∧ spanOf ts = some o.outer

namespace Pending

/-- A left operand of a level with its operator, or nothing. -/
inductive Waits (level : Level) : Option (Operand × Word) → List Token → Prop where
  | none : Waits level .none []
  | some {o : Operand} {ts : List Token} {t : Token} (h : o.Reads level.rule ts)
      (ht : t.Is level.terminal) : Waits level (.some (o, Progress.word t)) (ts ++ [t])

inductive Signs : List Span → List Token → Prop where
  | nil : Signs [] []
  | snoc {ss : List Span} {ts : List Token} {t : Token} (h : Signs ss ts) (ht : t.Is .negation) :
      Signs (t.span :: ss) (ts ++ [t])

/-- The tokens of the operators that wait. -/
def Reads (p : Pending) (ts : List Token) : Prop :=
  ∃ a b c d, Waits .comparison p.comparison a ∧ Waits .sum p.sum b ∧ Waits .product p.product c ∧
    Signs p.negations d ∧ ts = a ++ b ++ c ++ d

theorem reads_none : Pending.none.Reads [] :=
  ⟨[], [], [], [], .none, .none, .none, .nil, rfl⟩

theorem eq_nil_of_reads_none {ts : List Token} (h : Pending.none.Reads ts) : ts = [] := by
  obtain ⟨a, b, c, d, ha, hb, hc, hd, rfl⟩ := h
  cases ha
  cases hb
  cases hc
  cases hd
  rfl

theorem Signs.negated {ss : List Span} {ts us : List Token} (h : Signs ss ts) {o : Operand}
    (ho : o.Reads .atom us) :
    (ss.foldl (fun o sign => ⟨.negate o.expr (sign.to o.outer), sign.to o.outer⟩) o).Reads .atom
      (ts ++ us) := by
  induction h generalizing o us with
  | nil => exact ho
  | snoc _ ht ih =>
    rw [List.append_assoc]
    exact ih ⟨derives_negate ht ho.1 ho.2, spanOf_cons_of_some _ ho.2⟩

theorem Waits.join {level : Level} {w : Option (Operand × Word)} {ts us : List Token}
    (h : Waits level w ts) {o : Operand} (ho : o.Reads level.inner us) :
    (Pending.join level w o).Reads level.rule (ts ++ us) := by
  cases h with
  | none => exact ⟨derives_inner ho.1, ho.2⟩
  | @some lhs ts t hl ht =>
    rw [List.append_assoc]
    have hx := spanOf_append hl.2 (spanOf_cons_of_some t ho.2)
    exact ⟨derives_binary hl.1 hl.2 ht ho.1 ho.2, hx⟩

theorem Reads.toComparison {p : Pending} {ts us : List Token} (h : p.Reads ts) {o : Operand}
    (ho : o.Reads .atom us) : (p.toComparison o).Reads .expression (ts ++ us) := by
  obtain ⟨a, b, c, d, ha, hb, hc, hd, rfl⟩ := h
  have hp := ha.join (hb.join (hc.join (hd.negated ho)))
  rw [List.append_assoc, List.append_assoc, List.append_assoc]
  exact hp

/-- An operator behind an operand waits with what it has bound. -/
theorem Reads.push {p : Pending} {ts us : List Token} (h : p.Reads ts) {o : Operand}
    (ho : o.Reads .atom us) {level : Level} {t : Token} (ht : t.Is level.terminal) :
    (p.push o level (Progress.word t)).Reads (ts ++ us ++ [t]) := by
  obtain ⟨a, b, c, d, ha, hb, hc, hd, rfl⟩ := h
  cases level with
  | product =>
    have hp := hc.join (hd.negated ho)
    refine ⟨a, b, _, [], ha, hb, .some hp ht, .nil, ?_⟩
    simp only [List.append_assoc, List.append_nil]
  | sum =>
    have hp := hb.join (hc.join (hd.negated ho))
    refine ⟨a, _, [], [], ha, .some hp ht, .none, .nil, ?_⟩
    simp only [List.append_assoc, List.append_nil]
  | comparison =>
    have hp := ha.join (hb.join (hc.join (hd.negated ho)))
    refine ⟨_, [], [], [], .some hp ht, .none, .none, .nil, ?_⟩
    simp only [List.append_assoc, List.append_nil]

theorem Reads.sign {p : Pending} {ts : List Token} (h : p.Reads ts) {t : Token}
    (ht : t.Is .negation) : { p with negations := t.span :: p.negations }.Reads (ts ++ [t]) := by
  obtain ⟨a, b, c, d, ha, hb, hc, hd, rfl⟩ := h
  refine ⟨a, b, c, d ++ [t], ha, hb, hc, hd.snoc ht, ?_⟩
  simp only [List.append_assoc]

end Pending

/-! ## Open expressions -/

/-- Arguments that are followed by a comma each, the last one first. -/
inductive Leading : List Expr → List Token → Prop where
  | nil : Leading [] []
  | snoc {es : List Expr} {ts us : List Token} {e : Expr} {t : Token} (h : Leading es ts)
      (he : Derives (.rule .expression) us [e.toNode]) (ht : t.Is .comma) :
      Leading (e :: es) (ts ++ (us ++ [t]))

theorem Leading.arguments {es : List Expr} {ts us : List Token} {e : Expr} (h : Leading es ts)
    (he : Derives (.rule .expression) us [e.toNode]) :
    Derives .arguments (ts ++ us) (Expr.toNodes (e :: es).reverse) := by
  induction h generalizing us e with
  | nil => exact args_single he
  | snoc h' he' ht ih =>
    have hd := args_snoc (ih he') ht he
    rw [List.reverse_cons, toNodes_append]
    simpa only [List.append_assoc, List.singleton_append, Expr.toNodes] using hd

def CallReads (callee : Word) (before : List Expr) (ts : List Token) : Prop :=
  ∃ t l us, t.Is .identifier ∧ l.Is .leftParen ∧ Leading before us ∧ Progress.word t = callee ∧
    ts = t :: l :: us

/-- A call that a parenthesis closes. -/
theorem CallReads.close {callee : Word} {before args : List Expr} {ts us : List Token} {t : Token}
    (h : CallReads callee before ts) (ht : t.Is .rightParen)
    (hargs : ∀ vs, Leading before vs → Derives (.optional .arguments) (vs ++ us)
      (Expr.toNodes args.reverse)) :
    Derives (.rule .functionCall) (ts ++ us ++ [t])
        [.tree .functionCall (callee.toNode .identifier :: Expr.toNodes args.reverse)
          (.span (callee.span.to t.span))] ∧
      spanOf (ts ++ us ++ [t]) = some (callee.span.to t.span) := by
  obtain ⟨n, l, vs, hn, hl, hlead, rfl, rfl⟩ := h
  exact ⟨derives_call hn hl (hargs vs hlead) ht, spanOf_between n t (l :: (vs ++ us))⟩

def Surround.Reads : Surround → List Token → Prop
  | .paren mark, ts => ∃ t : Token, t.Is .leftParen ∧ t.span = mark ∧ ts = [t]
  | .argument callee before, ts => CallReads callee before ts

/-- What encloses an expression, from within. -/
def AroundReads : List (Surround × Pending) → List Token → Prop
  | [], ts => ts = []
  | (s, p) :: rest, ts => ∃ a b c, AroundReads rest a ∧ p.Reads b ∧ s.Reads c ∧ ts = a ++ b ++ c

/-! ## Open conditionals -/

def Guard.Reads (g : Guard) (ts : List Token) : Prop :=
  ∃ k us, k.Is g.keyword.terminal ∧ k.span = g.span ∧
    Derives (.rule .expression) us [g.condition.toNode] ∧ ts = k :: us

def Arm.Reads (a : Arm) (ts : List Token) : Prop :=
  ∃ us vs, a.guard.Reads us ∧ Derives (.rule .block) vs [a.body.toNode] ∧
    spanOf vs = some a.body.span ∧ ts = us ++ vs

/-- An arm ends where its body does. -/
theorem Arm.Reads.ends {a : Arm} {ts : List Token} (h : a.Reads ts) :
    ∃ s, spanOf (ts ++ []) = some s ∧ s.last = a.body.span.last := by
  obtain ⟨us, vs, _, _, hs, rfl⟩ := h
  rw [List.append_nil]
  exact spanOf_append_last us hs

/-- Arms with the word for else behind each, the last one first. -/
inductive ArmsRead : List Arm → List Token → Prop where
  | nil : ArmsRead [] []
  | snoc {arm : Arm} {arms : List Arm} {ts us : List Token} {t : Token} (h : ArmsRead arms ts)
      (ha : arm.Reads us) (ht : t.Is .elseWord) : ArmsRead (arm :: arms) (ts ++ us ++ [t])

def Conditional.Reads (c : Conditional) (ts : List Token) : Prop :=
  ∃ w : Keyword, Derives (.rule w.rule) ts [c.toNode] ∧ spanOf ts = some c.span

/-- An arm and what follows its body make a conditional that ends where they do. -/
theorem Arm.Reads.conditional {arm : Arm} {ts us : List Token} {tail : Otherwise} {last s : Span}
    (h : arm.Reads ts) (ho : Derives .elseBranch us tail.toNodes)
    (hs : spanOf (ts ++ us) = some s) (hlast : s.last = last.last) :
    (Conditional.mk arm.guard arm.body tail (arm.guard.span.to last)).Reads (ts ++ us) := by
  obtain ⟨gs, vs, ⟨k, cs, hk, hspan, hc, rfl⟩, hb, _, rfl⟩ := h
  have hto : s = arm.guard.span.to last := by
    have hfirst : s.first = arm.guard.span.first := hspan ▸ first_of_spanOf hs
    rw [Span.to, ← hfirst, ← hlast]
  subst hto
  rw [List.cons_append, List.cons_append, List.append_assoc] at hs ⊢
  refine ⟨arm.guard.keyword, ?_, hs⟩
  have hd := derives_conditional hk hc hb ho hs
  rwa [hspan] at hd

/-- The conditional of a chain of arms. -/
theorem ArmsRead.conditional {arms : List Arm} {ts us vs : List Token} {arm : Arm}
    {tail : Otherwise} {last s : Span} (h : ArmsRead arms ts) (ha : arm.Reads us)
    (ho : Derives .elseBranch vs tail.toNodes) (hs : spanOf (us ++ vs) = some s)
    (hlast : s.last = last.last) :
    (Conditional.ofArms tail last arm arms).Reads (ts ++ (us ++ vs)) := by
  induction h generalizing us vs arm tail s with
  | nil => exact ha.conditional ho hs hlast
  | @snoc earlier arms ts us' t h' ha' ht ih =>
    obtain ⟨w, hd, hx⟩ := ha.conditional ho hs hlast
    have hchain := derives_elseBlock_chain ht hd hx
    obtain ⟨s', hs', hlast'⟩ := spanOf_append_last us' (spanOf_cons_of_some t hx)
    have hc := ih ha' hchain hs' hlast'
    rw [Conditional.ofArms]
    simpa only [List.append_assoc, List.cons_append, List.nil_append] using hc

/-! ## Scopes -/

/-- The tokens of a scope; if `ended` is not yet settled, a semicolon may still end the last
statement. -/
def Scope.Reads (s : Scope) (mayEnd : Bool) (ts : List Token) : Prop :=
  s.extent = spanOf ts ∧
    if mayEnd then
      ∃ st done us vs, s.done = st :: done ∧
        Derives (.many (.rule .line)) us (Statement.toNodes done.reverse) ∧
        Derives .simple vs [st.toNode] ∧ ts = us ++ vs
    else Derives (.many (.rule .line)) ts (Statement.toNodes s.done.reverse)

theorem reads_empty_scope : Scope.empty.Reads false [] := ⟨rfl, Derives.none⟩

theorem reverse_statements {us vs : List Token} {done : List Statement} {st : Statement}
    (h : Derives (.many (.rule .line)) us (Statement.toNodes done.reverse))
    (hst : Derives (.rule .line) vs [st.toNode]) :
    Derives (.many (.rule .line)) (us ++ vs) (Statement.toNodes (st :: done).reverse) := by
  rw [List.reverse_cons, statements_append]
  simpa only [Statement.toNodes] using h.snoc hst

/-- A scope in which nothing is left to settle. -/
theorem Scope.Reads.settled {s : Scope} {mayEnd : Bool} {ts : List Token} (h : s.Reads mayEnd ts) :
    Derives (.many (.rule .line)) ts (Statement.toNodes s.done.reverse) := by
  obtain ⟨_, hd⟩ := h
  cases mayEnd with
  | false => exact hd
  | true =>
    obtain ⟨st, done, us, vs, hdone, hmany, hlast, rfl⟩ := hd
    rw [hdone]
    exact reverse_statements hmany (derives_line_simple hlast)

theorem reach_spanOf {s : Scope} {ts us : List Token} {span : Span} (h : s.extent = spanOf ts)
    (hu : spanOf us = some span) : (s.reach span).extent = spanOf (ts ++ us) := by
  cases hts : spanOf ts with
  | none =>
    obtain rfl := spanOf_eq_none.mp hts
    rw [Scope.reach, h, hts, List.nil_append, hu]
  | some e => rw [Scope.reach, h, hts, spanOf_append hts hu]

theorem Scope.Reads.semicolon {s : Scope} {ts : List Token} {t : Token} (h : s.Reads true ts)
    (ht : t.Is .semicolon) : (s.reach t.span).Reads false (ts ++ [t]) := by
  obtain ⟨hx, st, done, us, vs, hdone, hmany, hlast, rfl⟩ := h
  refine ⟨reach_spanOf hx (spanOf_singleton t), ?_⟩
  rw [Scope.reach, hdone, List.append_assoc]
  exact reverse_statements hmany (derives_line_ended hlast ht)

theorem Scope.Reads.add {s : Scope} {mayEnd : Bool} {ts us : List Token} {st : Statement}
    {outer : Span} (h : s.Reads mayEnd ts) (hst : Derives (.rule .line) us [st.toNode])
    (hu : spanOf us = some outer) : (s.add st outer).Reads false (ts ++ us) :=
  ⟨reach_spanOf h.1 hu, reverse_statements h.settled hst⟩

/-- A statement that a semicolon may follow. -/
theorem Scope.Reads.addSimple {s : Scope} {mayEnd : Bool} {ts us : List Token} {st : Statement}
    {outer : Span} (h : s.Reads mayEnd ts) (hst : Derives .simple us [st.toNode])
    (hu : spanOf us = some outer) : (s.add st outer).Reads true (ts ++ us) :=
  ⟨reach_spanOf h.1 hu, st, s.done, ts, us, rfl, h.settled, hst, rfl⟩

/-- What opens a block: arms, then a guard or the word for else, and a brace. -/
def Opening.Reads : Opening → List Token → Prop
  | .body arms guard brace, ts =>
    ∃ us vs t, ArmsRead arms us ∧ guard.Reads vs ∧ t.Is .leftBrace ∧ t.span = brace ∧
      ts = us ++ vs ++ [t]
  | .branch arm arms brace, ts =>
    ∃ us t, ArmsRead (arm :: arms) us ∧ t.Is .leftBrace ∧ t.span = brace ∧ ts = us ++ [t]

/-- The enclosing scopes, from within. -/
def OuterReads : List (Opening × Scope) → List Token → Prop
  | [], ts => ts = []
  | (opening, scope) :: outer, ts =>
    ∃ us vs ws, OuterReads outer us ∧ scope.Reads false vs ∧ opening.Reads ws ∧ ts = us ++ vs ++ ws

/-! ## The statement at hand -/

def Purpose.Reads : Purpose → List Token → Prop
  | .assign target, ts =>
    ∃ t a, t.Is .identifier ∧ a.Is .assign ∧ Progress.word t = target ∧ ts = [t, a]
  | .guard arms keyword span, ts =>
    ∃ us k, ArmsRead arms us ∧ k.Is keyword.terminal ∧ k.span = span ∧ ts = us ++ [k]
  | .argument callee before, ts => CallReads callee before ts

def Expecting.Reads (e : Expecting) (ts : List Token) : Prop :=
  ∃ a b c, e.purpose.Reads a ∧ AroundReads e.around b ∧ e.pending.Reads c ∧ ts = a ++ b ++ c

/-- The arguments before the innermost expression, if it is one of a call. -/
def Expecting.before? (e : Expecting) : Option (List Expr) :=
  match e.around, e.purpose with
  | (.argument _ before, _) :: _, _ => some before
  | [], .argument _ before => some before
  | _, _ => none

/-- An empty list of arguments is open. -/
def Expecting.Closable (e : Expecting) : Prop := e.pending = .none ∧ e.before? = some []

def Point.Reads : Point → List Token → Prop
  | .line _, ts => ts = []
  | .named name, ts => ∃ t, t.Is .identifier ∧ Progress.word t = name ∧ ts = [t]
  | .operand e closable, ts => e.Reads ts ∧ (closable = true → e.Closable)
  | .operator e o name, ts =>
    ∃ us vs, e.Reads us ∧ o.Reads .atom vs ∧
      (∀ w ∈ name, ∃ t, t.Is .identifier ∧ Progress.word t = w ∧ vs = [t]) ∧ ts = us ++ vs
  | .closed arm arms, ts => ∃ us vs, ArmsRead arms us ∧ arm.Reads vs ∧ ts = us ++ vs
  | .branch arm arms, ts => ArmsRead (arm :: arms) ts

def Point.mayEnd : Point → Bool
  | .line semicolon => semicolon
  | _ => false

namespace Progress

/-- The tokens that a progress has taken. -/
def Reads (p : Progress) (ts : List Token) : Prop :=
  ∃ a b c, OuterReads p.outer a ∧ p.scope.Reads p.point.mayEnd b ∧ p.point.Reads c ∧
    ts = a ++ b ++ c

theorem reads_start : start.Reads [] := ⟨[], [], [], rfl, reads_empty_scope, rfl, rfl⟩

variable {p q : Progress} {t : Token} {a b c : List Token}

/-- The conditional that arms make is one more statement. -/
theorem reads_addArms {tail : Otherwise} {last s : Span} {arm : Arm} {arms : List Arm}
    {us vs ws : List Token} {mayEnd : Bool} (ha : OuterReads p.outer a)
    (hb : p.scope.Reads mayEnd b) (hu : ArmsRead arms us) (hv : arm.Reads vs)
    (ho : Derives .elseBranch ws tail.toNodes) (hs : spanOf (vs ++ ws) = some s)
    (hlast : s.last = last.last) :
    OuterReads (p.addArms tail last arm arms).outer a ∧
      (p.addArms tail last arm arms).scope.Reads false (b ++ (us ++ (vs ++ ws))) := by
  obtain ⟨w, hd, hx⟩ := hu.conditional hv ho hs hlast
  exact ⟨ha, hb.add (derives_line_conditional hd) hx⟩

theorem reads_closeBlock {mayEnd : Bool} (ha : OuterReads p.outer a)
    (hb : p.scope.Reads mayEnd b) (ht : t.Is .rightBrace) (h : p.closeBlock t = some q) :
    q.Reads (a ++ b ++ [t]) := by
  unfold closeBlock at h
  split at h
  · cases h
  · next arms guard brace scope outer hp =>
    cases h
    rw [hp] at ha
    obtain ⟨us, vs, ws, hus, hvs, ⟨as, gs, l, has, hgs, hl, hspan, rfl⟩, rfl⟩ := ha
    subst hspan
    have hblock := derives_block hl hb.settled ht
    have harm : (Arm.mk guard (.mk p.scope.done.reverse (l.span.to t.span))).Reads
        (gs ++ (l :: (b ++ [t]))) := ⟨_, _, hgs, hblock, spanOf_between l t b, rfl⟩
    refine ⟨us, vs, as ++ (gs ++ (l :: (b ++ [t]))), hus, hvs, ⟨as, _, has, harm, rfl⟩, ?_⟩
    simp only [List.append_assoc, List.cons_append, List.nil_append]
  · next arm arms brace scope outer hp =>
    cases h
    rw [hp] at ha
    obtain ⟨us, vs, ws, hus, hvs, ⟨xs, l, hxs, hl, hspan, rfl⟩, rfl⟩ := ha
    subst hspan
    cases hxs with
    | @snoc _ _ as gs e has hgs he =>
      have hblock := derives_block hl hb.settled ht
      have helse := derives_elseBlock_block he hblock (spanOf_between l t b)
      obtain ⟨s, hs, hlast⟩ := spanOf_append_last gs
        (spanOf_cons_of_some e (spanOf_between l t b))
      have hend : s.last = t.span.last := hlast
      obtain ⟨houter, hscope⟩ := reads_addArms (p := ⟨scope, outer, p.point⟩) hus hvs has hgs helse
        hs hend
      refine ⟨us, _, [], houter, hscope, rfl, ?_⟩
      simp only [List.append_assoc, List.cons_append, List.nil_append, List.append_nil]

/-- A keyword begins a conditional behind the arms that lead to it. -/
theorem reads_beginGuard {arms : List Arm} (ha : OuterReads p.outer a)
    (hb : p.scope.Reads false b) (hc : ArmsRead arms c) (ht : t.Spelled)
    (h : p.beginGuard arms t = some q) : q.Reads (a ++ b ++ c ++ [t]) := by
  unfold beginGuard at h
  obtain ⟨k, hk, rfl⟩ := Option.map_eq_some_iff.mp h
  have hexpecting : (Expecting.start (.guard arms k t.span)).Reads (c ++ [t]) :=
    ⟨c ++ [t], [], [], ⟨c, t, hc, ⟨keyword_terminal hk, ht⟩, rfl, rfl⟩, rfl, Pending.reads_none,
      by simp only [List.append_nil]⟩
  refine ⟨a, b, c ++ [t], ha, hb, ⟨hexpecting, fun h => nomatch h⟩, ?_⟩
  simp only [List.append_assoc]

/-- A token where a statement may begin. -/
theorem reads_stepLine {mayEnd : Bool} (ha : OuterReads p.outer a) (hb : p.scope.Reads mayEnd b)
    (ht : t.Spelled) (h : p.stepLine mayEnd t = some q) : q.Reads (a ++ b ++ [t]) := by
  have hsettled : p.scope.Reads false b := ⟨hb.1, hb.settled⟩
  unfold stepLine at h
  split at h
  · next hk =>
    cases mayEnd with
    | false => simp at h
    | true =>
      simp only [if_true, Option.some.injEq] at h
      subst h
      refine ⟨a, b ++ [t], [], ha, hb.semicolon ⟨hk, ht⟩, rfl, ?_⟩
      simp only [List.append_assoc, List.append_nil]
  · next hk =>
    cases h
    exact ⟨a, b, [t], ha, hsettled, ⟨t, ⟨hk, ht⟩, rfl, rfl⟩, rfl⟩
  · next hk => exact reads_closeBlock ha hb ⟨hk, ht⟩ h
  · simpa only [List.append_nil] using reads_beginGuard ha hsettled .nil ht h

/-- A token behind the name that begins a statement. -/
theorem reads_stepNamed {name : Word} (ha : OuterReads p.outer a) (hb : p.scope.Reads false b)
    (hc : (Point.named name).Reads c) (ht : t.Spelled) (h : p.stepNamed name t = some q) :
    q.Reads (a ++ b ++ c ++ [t]) := by
  obtain ⟨n, hn, hname, rfl⟩ := hc
  unfold stepNamed at h
  split at h
  · next hk =>
    cases h
    have he : (Expecting.start (.assign name)).Reads [n, t] :=
      ⟨[n, t], [], [], ⟨n, t, hn, ⟨hk, ht⟩, hname, rfl⟩, rfl, Pending.reads_none, rfl⟩
    refine ⟨a, b, [n, t], ha, hb, ⟨he, fun h => nomatch h⟩, ?_⟩
    simp only [List.append_assoc, List.cons_append, List.nil_append]
  · next hk =>
    cases h
    have he : (Expecting.start (.argument name [])).Reads [n, t] :=
      ⟨[n, t], [], [], ⟨n, t, [], hn, ⟨hk, ht⟩, .nil, hname, rfl⟩, rfl, Pending.reads_none, rfl⟩
    refine ⟨a, b, [n, t], ha, hb, ⟨he, fun _ => ⟨rfl, rfl⟩⟩, ?_⟩
    simp only [List.append_assoc, List.cons_append, List.nil_append]
  · cases h

/-- A parenthesis that closes the arguments of a call, the last of which the tokens `ws` are. -/
theorem reads_closeCall {e : Expecting} {args : List Expr} {us vs ws : List Token}
    (ha : OuterReads p.outer a) (hb : p.scope.Reads false b) (hu : e.purpose.Reads us)
    (hv : AroundReads e.around vs) (ht : t.Is .rightParen)
    (hargs : ∀ before ∈ e.before?, ∀ xs, Leading before xs →
      Derives (.optional .arguments) (xs ++ ws) (Expr.toNodes args.reverse))
    (h : p.closeCall e args t = some q) : q.Reads (a ++ b ++ (us ++ vs ++ ws) ++ [t]) := by
  unfold closeCall at h
  split at h
  · next callee before pending around haround =>
    cases h
    rw [haround] at hv
    obtain ⟨x, y, z, hx, hy, hz, rfl⟩ := hv
    have hbefore : before ∈ e.before? := by simp [Expecting.before?, haround]
    obtain ⟨hd, hs⟩ := CallReads.close hz ht (hargs before hbefore)
    refine ⟨a, b, us ++ x ++ y ++ (z ++ ws ++ [t]), ha, hb,
      ⟨us ++ x ++ y, z ++ ws ++ [t], ⟨us, x, y, hu, hx, hy, rfl⟩, ⟨derives_callExpr hd, hs⟩,
        (fun _ hw => nomatch hw), rfl⟩, ?_⟩
    simp only [List.append_assoc]
  · cases h
  · next haround =>
    split at h
    · next callee before hpurpose =>
      cases h
      rw [haround] at hv
      rw [hpurpose] at hu
      obtain rfl : vs = [] := hv
      have hbefore : before ∈ e.before? := by simp [Expecting.before?, haround, hpurpose]
      obtain ⟨hd, hs⟩ := CallReads.close hu ht (hargs before hbefore)
      have hst : Derives .simple (us ++ ws ++ [t])
          [(Statement.call callee args.reverse (callee.span.to t.span)).toNode] := by
        rw [Statement.toNode]
        exact .right hd
      refine ⟨a, b ++ (us ++ ws ++ [t]), [], ha, hb.addSimple hst hs, rfl, ?_⟩
      simp only [List.append_assoc, List.append_nil]
    · cases h

/-- A token where an operand has to follow. -/
theorem reads_stepOperand {e : Expecting} {closable : Bool} (ha : OuterReads p.outer a)
    (hb : p.scope.Reads false b) (hc : (Point.operand e closable).Reads c) (ht : t.Spelled)
    (h : p.stepOperand e closable t = some q) : q.Reads (a ++ b ++ c ++ [t]) := by
  obtain ⟨he, hclosable⟩ := hc
  -- An operand of one token, from which an expression goes on.
  have hoperand : ∀ (x : Expr) (name : Option Word), Derives (.rule .atom) [t] [x.toNode] →
      (∀ w ∈ name, t.Is .identifier ∧ word t = w) →
      ({ p with point := .operator e ⟨x, t.span⟩ name } : Progress).Reads (a ++ b ++ c ++ [t]) := by
    intro x name hx hname
    refine ⟨a, b, c ++ [t], ha, hb, ⟨c, [t], he, ⟨hx, spanOf_singleton t⟩, ?_, rfl⟩, ?_⟩
    · intro w hw
      exact ⟨t, (hname w hw).1, (hname w hw).2, rfl⟩
    · simp only [List.append_assoc]
  obtain ⟨us, vs, ws, hu, hv, hw, rfl⟩ := he
  unfold stepOperand at h
  split at h
  · next hk =>
    cases h
    have hn : t.Is .identifier := ⟨hk, ht⟩
    refine hoperand _ _ (derives_name hn) ?_
    intro w hw
    exact ⟨hn, Option.some.inj hw⟩
  · next hk =>
    cases h
    have hp := hw.sign ⟨hk, ht⟩
    refine ⟨a, b, us ++ vs ++ (ws ++ [t]), ha, hb,
      ⟨⟨us, vs, _, hu, hv, hp, rfl⟩, fun h => nomatch h⟩, ?_⟩
    simp only [List.append_assoc]
  · next hk =>
    cases h
    have harea : AroundReads ((.paren t.span, e.pending) :: e.around) (vs ++ ws ++ [t]) :=
      ⟨vs, ws, [t], hv, hw, ⟨t, ⟨hk, ht⟩, rfl, rfl⟩, rfl⟩
    refine ⟨a, b, us ++ (vs ++ ws ++ [t]) ++ [], ha, hb,
      ⟨⟨us, _, [], hu, harea, Pending.reads_none, rfl⟩, fun h => nomatch h⟩, ?_⟩
    simp only [List.append_assoc, List.append_nil]
  · next hk =>
    split at h
    · next hcl =>
      obtain ⟨hpending, hbefore⟩ := hclosable hcl
      rw [hpending] at hw
      obtain rfl := Pending.eq_nil_of_reads_none hw
      refine reads_closeCall ha hb hu hv ⟨hk, ht⟩ ?_ h
      intro before hmem xs hxs
      obtain rfl : before = [] := by
        rw [hbefore, Option.mem_def, Option.some.injEq] at hmem
        exact hmem.symm
      cases hxs
      exact .right .empty
    · cases h
  · obtain ⟨kind, hk, rfl⟩ := Option.map_eq_some_iff.mp h
    exact hoperand _ _ (derives_literal ht hk) (fun _ hw => nomatch hw)

/-- A token behind a complete expression. -/
theorem reads_stepComplete {e : Expecting} {o : Operand} {us vs ws : List Token}
    (ha : OuterReads p.outer a) (hb : p.scope.Reads false b) (hu : e.purpose.Reads us)
    (hv : AroundReads e.around vs) (ho : o.Reads .expression ws) (ht : t.Spelled)
    (h : p.stepComplete e o t = some q) : q.Reads (a ++ b ++ (us ++ vs ++ ws) ++ [t]) := by
  -- The argument that has been read follows those before it.
  have hargs : ∀ before xs, Leading before xs →
      Derives (.optional .arguments) (xs ++ ws) (Expr.toNodes (o.expr :: before).reverse) :=
    fun before xs hxs => .left (hxs.arguments ho.1)
  unfold stepComplete at h
  split at h
  · next mark pending around haround =>
    split at h
    · next hk =>
      cases h
      rw [haround] at hv
      obtain ⟨x, y, z, hx, hy, ⟨l, hl, rfl, rfl⟩, rfl⟩ := hv
      have hparen : Operand.Reads .atom ⟨o.expr, l.span.to t.span⟩ (l :: (ws ++ [t])) :=
        ⟨derives_paren hl ho.1 ⟨hk, ht⟩, spanOf_between l t ws⟩
      refine ⟨a, b, us ++ x ++ y ++ (l :: (ws ++ [t])), ha, hb,
        ⟨us ++ x ++ y, _, ⟨us, x, y, hu, hx, hy, rfl⟩, hparen, (fun _ hw => nomatch hw), rfl⟩, ?_⟩
      simp only [List.append_assoc, List.cons_append, List.nil_append]
    · cases h
  · next callee before pending around haround =>
    split at h
    · next hk =>
      cases h
      rw [haround] at hv
      obtain ⟨x, y, z, hx, hy, ⟨n, l, zs, hn, hl, hlead, hname, rfl⟩, rfl⟩ := hv
      have harea : AroundReads ((.argument callee (o.expr :: before), pending) :: around)
          (x ++ y ++ (n :: l :: (zs ++ (ws ++ [t])))) :=
        ⟨x, y, _, hx, hy, ⟨n, l, _, hn, hl, hlead.snoc ho.1 ⟨hk, ht⟩, hname, rfl⟩, rfl⟩
      refine ⟨a, b, us ++ (x ++ y ++ (n :: l :: (zs ++ (ws ++ [t])))) ++ [], ha, hb,
        ⟨⟨us, _, [], hu, harea, Pending.reads_none, rfl⟩, fun h => nomatch h⟩, ?_⟩
      simp only [List.append_assoc, List.cons_append, List.append_nil]
    · next hk =>
      refine reads_closeCall ha hb hu hv ⟨hk, ht⟩ ?_ h
      intro before' hmem xs hxs
      obtain rfl : before = before' := by
        rw [Expecting.before?, haround, Option.mem_def, Option.some.injEq] at hmem
        exact hmem
      exact hargs before xs hxs
    · cases h
  · next haround =>
    rw [haround] at hv
    obtain rfl : vs = [] := hv
    split at h
    · next target hpurpose =>
      rw [hpurpose] at hu
      obtain ⟨n, eq, hn, heq, hname, rfl⟩ := hu
      subst hname
      have hd := derives_assignment hn heq ho.1 ho.2
      have hs : spanOf (n :: eq :: ws) = some (n.span.to o.outer) := by
        rw [spanOf_cons_of_some n (spanOf_cons_of_some eq ho.2)]
        rfl
      have hscope := hb.addSimple (.left hd) hs
      have hq := reads_stepLine (p := { p with scope := p.scope.add _ _ }) ha hscope ht h
      simpa only [List.append_assoc, List.cons_append, List.nil_append] using hq
    · next arms keyword span hpurpose =>
      split at h
      · next hk =>
        cases h
        rw [hpurpose] at hu
        obtain ⟨as, k, has, hkey, hspan, rfl⟩ := hu
        have hguard : Guard.Reads ⟨keyword, span, o.expr⟩ (k :: ws) :=
          ⟨k, ws, hkey, hspan, ho.1, rfl⟩
        refine ⟨a ++ b ++ (as ++ (k :: ws) ++ [t]), [], [],
          ⟨a, b, _, ha, hb, ⟨as, _, t, has, hguard, ⟨hk, ht⟩, rfl, rfl⟩, rfl⟩,
          reads_empty_scope, rfl, ?_⟩
        simp only [List.append_assoc, List.cons_append, List.nil_append, List.append_nil]
      · cases h
    · next callee before hpurpose =>
      split at h
      · next hk =>
        cases h
        rw [hpurpose] at hu
        obtain ⟨n, l, zs, hn, hl, hlead, hname, rfl⟩ := hu
        have hcall : CallReads callee (o.expr :: before) (n :: l :: (zs ++ (ws ++ [t]))) :=
          ⟨n, l, _, hn, hl, hlead.snoc ho.1 ⟨hk, ht⟩, hname, rfl⟩
        refine ⟨a, b, n :: l :: (zs ++ (ws ++ [t])), ha, hb,
          ⟨⟨_, [], [], hcall, rfl, Pending.reads_none, by simp only [List.append_nil]⟩,
            fun h => nomatch h⟩, ?_⟩
        simp only [List.append_assoc, List.cons_append, List.nil_append]
      · next hk =>
        have hv' : AroundReads e.around [] := haround ▸ rfl
        refine reads_closeCall ha hb hu hv' ⟨hk, ht⟩ ?_ h
        intro before' hmem xs hxs
        obtain rfl : before = before' := by
          rw [Expecting.before?, haround, hpurpose, Option.mem_def, Option.some.injEq] at hmem
          exact hmem
        exact hargs before xs hxs
      · cases h

/-- A token behind an operand. -/
theorem reads_stepOperator {e : Expecting} {o : Operand} {name : Option Word}
    (ha : OuterReads p.outer a) (hb : p.scope.Reads false b)
    (hc : (Point.operator e o name).Reads c) (ht : t.Spelled)
    (h : p.stepOperator e o name t = some q) : q.Reads (a ++ b ++ c ++ [t]) := by
  obtain ⟨us, vs, he, ho, hname, rfl⟩ := hc
  obtain ⟨x, y, z, hx, hy, hz, rfl⟩ := he
  unfold stepOperator at h
  split at h
  · next callee hk =>
    cases h
    obtain ⟨n, hn, hword, rfl⟩ := hname callee rfl
    have harea : AroundReads ((.argument callee [], e.pending) :: e.around) (y ++ z ++ [n, t]) :=
      ⟨y, z, [n, t], hy, hz, ⟨n, t, [], hn, ⟨hk, ht⟩, .nil, hword, rfl⟩, rfl⟩
    refine ⟨a, b, x ++ (y ++ z ++ [n, t]) ++ [], ha, hb,
      ⟨⟨x, _, [], hx, harea, Pending.reads_none, rfl⟩, fun _ => ⟨rfl, rfl⟩⟩, ?_⟩
    simp only [List.append_assoc, List.append_nil, List.cons_append, List.nil_append]
  · split at h
    · next level hlevel =>
      cases h
      have hp := hz.push ho ⟨level_eq_of_level? hlevel, ht⟩
      refine ⟨a, b, x ++ y ++ (z ++ vs ++ [t]), ha, hb,
        ⟨⟨x, y, _, hx, hy, hp, rfl⟩, fun h => nomatch h⟩, ?_⟩
      simp only [List.append_assoc]
    · have hq := reads_stepComplete ha hb hx hy (hz.toComparison ho) ht h
      simpa only [List.append_assoc] using hq

/-- A token behind the body of an arm. -/
theorem reads_stepClosed {arm : Arm} {arms : List Arm} (ha : OuterReads p.outer a)
    (hb : p.scope.Reads false b) (hc : (Point.closed arm arms).Reads c) (ht : t.Spelled)
    (h : p.stepClosed arm arms t = some q) : q.Reads (a ++ b ++ c ++ [t]) := by
  obtain ⟨us, vs, hu, hv, rfl⟩ := hc
  unfold stepClosed at h
  split at h
  · next hk =>
    cases h
    refine ⟨a, b, us ++ vs ++ [t], ha, hb, hu.snoc hv ⟨hk, ht⟩, ?_⟩
    simp only [List.append_assoc]
  · obtain ⟨s, hs, hlast⟩ := hv.ends
    obtain ⟨houter, hscope⟩ := reads_addArms ha hb hu hv derives_elseBlock_absent hs hlast
    have hq := reads_stepLine houter hscope ht h
    simpa only [List.append_assoc, List.append_nil] using hq

/-- A token behind the word for else. -/
theorem reads_stepBranch {arm : Arm} {arms : List Arm} (ha : OuterReads p.outer a)
    (hb : p.scope.Reads false b) (hc : (Point.branch arm arms).Reads c) (ht : t.Spelled)
    (h : p.stepBranch arm arms t = some q) : q.Reads (a ++ b ++ c ++ [t]) := by
  unfold stepBranch at h
  split at h
  · next hk =>
    cases h
    refine ⟨a ++ b ++ (c ++ [t]), [], [],
      ⟨a, b, _, ha, hb, ⟨c, t, hc, ⟨hk, ht⟩, rfl, rfl⟩, rfl⟩, reads_empty_scope, rfl, ?_⟩
    simp only [List.append_assoc, List.append_nil]
  · exact reads_beginGuard ha hb hc ht h

/-- A step keeps the invariant. -/
theorem Reads.step {ts : List Token} (hr : p.Reads ts) (ht : t.Spelled) (h : p.step t = some q) :
    q.Reads (ts ++ [t]) := by
  obtain ⟨a, b, c, ha, hb, hc, rfl⟩ := hr
  unfold Progress.step at h
  cases hp : p.point with
  | line mayEnd =>
    rw [hp] at hb hc h
    obtain rfl : c = [] := hc
    rw [List.append_nil]
    exact reads_stepLine ha hb ht h
  | named name =>
    rw [hp] at hb hc h
    exact reads_stepNamed ha hb hc ht h
  | operand e closable =>
    rw [hp] at hb hc h
    exact reads_stepOperand ha hb hc ht h
  | operator e o name =>
    rw [hp] at hb hc h
    exact reads_stepOperator ha hb hc ht h
  | closed arm arms =>
    rw [hp] at hb hc h
    exact reads_stepClosed ha hb hc ht h
  | branch arm arms =>
    rw [hp] at hb hc h
    exact reads_stepBranch ha hb hc ht h

/-- So do all steps. -/
theorem Reads.readAll {ts us : List Token} (hr : p.Reads ts) (hu : ∀ t ∈ us, t.Spelled)
    (h : p.readAll us = .ok q) : q.Reads (ts ++ us) := by
  induction us generalizing p ts with
  | nil =>
    cases h
    simpa only [List.append_nil] using hr
  | cons t us ih =>
    rw [Progress.readAll] at h
    split at h
    · next r hs =>
      have hstep := hr.step (hu t List.mem_cons_self) hs
      have hq := ih hstep (fun u hmem => hu u (List.mem_cons_of_mem t hmem)) h
      simpa only [List.append_assoc, List.cons_append, List.nil_append] using hq
    · cases h

/-- A scope that is left at the end of the source is a program. -/
theorem derives_program {scope : Scope} {mayEnd : Bool} {ts : List Token}
    (h : scope.Reads mayEnd ts) :
    Derives (.rule .program) ts [(Program.mk scope.done.reverse scope.extent).toNode] := by
  have hd := Derives.rule (r := .program) (List.mem_singleton_self _) h.settled
  rw [Program.toNode, h.1]
  exact hd

/-- A progress that may end has read its program. -/
theorem Reads.finish {ts : List Token} {program : Program} (hr : p.Reads ts)
    (h : p.finish = some program) : Derives (.rule .program) ts [program.toNode] := by
  obtain ⟨a, b, c, ha, hb, hc, rfl⟩ := hr
  -- The outermost scope is the whole program.
  have hwhole : ∀ {scope : Scope} {mayEnd : Bool} {us : List Token}, scope.Reads mayEnd us →
      (if p.outer.isEmpty then some (Program.mk scope.done.reverse scope.extent) else none) =
        some program → Derives (.rule .program) (a ++ us) [program.toNode] := by
    intro scope mayEnd us hscope heq
    split at heq
    · next hempty =>
      rw [List.isEmpty_iff.mp hempty] at ha
      obtain rfl : a = [] := ha
      cases heq
      exact derives_program hscope
    · cases heq
  unfold Progress.finish at h
  rw [List.append_assoc]
  cases hp : p.point with
  | line mayEnd =>
    rw [hp] at hb hc h
    obtain rfl : c = [] := hc
    rw [List.append_nil]
    exact hwhole hb h
  | operator e o name =>
    rw [hp] at hb hc h
    obtain ⟨us, vs, ⟨x, y, z, hx, hy, hz, rfl⟩, ho, _, rfl⟩ := hc
    obtain ⟨purpose, around, pending⟩ := e
    cases purpose with
    | assign target =>
      cases around with
      | cons _ _ => cases h
      | nil =>
        obtain ⟨n, eq, hn, heq, hname, rfl⟩ := hx
        obtain rfl : y = [] := hy
        have hexpr := hz.toComparison ho
        have hs : spanOf (n :: eq :: (z ++ vs)) =
            some (n.span.to (pending.toComparison o).outer) := by
          rw [spanOf_cons_of_some n (spanOf_cons_of_some eq hexpr.2)]
          rfl
        subst hname
        have hscope := hb.addSimple (.left (derives_assignment hn heq hexpr.1 hexpr.2)) hs
        have hprogram := hwhole hscope h
        simpa only [List.append_assoc, List.append_nil, List.cons_append, List.nil_append]
          using hprogram
    | guard _ _ _ => cases h
    | argument _ _ => cases h
  | closed arm arms =>
    rw [hp] at hb hc h
    obtain ⟨us, vs, hu, hv, rfl⟩ := hc
    obtain ⟨s, hs, hlast⟩ := hv.ends
    obtain ⟨_, hscope⟩ := reads_addArms ha hb hu hv derives_elseBlock_absent hs hlast
    have hprogram := hwhole hscope h
    simpa only [List.append_nil] using hprogram
  | named _ | operand _ _ | branch _ _ =>
    rw [hp] at h
    cases h

/-- Tokens that read as a program derive it. -/
theorem derives_of_readAll {ts : List Token} {program : Program} (hs : ∀ t ∈ ts, t.Spelled)
    (h : start.readAll ts = .ok p) (hf : p.finish = some program) :
    Derives (.rule .program) ts [program.toNode] :=
  (reads_start.readAll hs h).finish hf

end Progress

end Scriptlet.Source
