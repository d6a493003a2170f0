import Scriptlet.Proofs.Grammar
/-!
# Building derivations

The derivations of each part of a program, put together from the derivations of its parts, with the
tree that stands for the part. Main statements: a longer list of arguments (`args_snoc`), operators
of each level (`derives_binary`), calls (`derives_call`) and conditionals (`derives_conditional`).
-/

namespace Scriptlet.Source

/-! ## Tokens and lists -/

/-- A token of a terminal, with a text that fits. -/
def Token.Is (t : Token) (k : Terminal) : Prop := t.terminal = k ∧ t.Spelled

theorem Token.Is.derives {t : Token} {k : Terminal} (h : t.Is k) :
    Derives (.terminal k) [t] t.nodes := by
  obtain ⟨rfl, hs⟩ := h
  exact .terminal hs

theorem nodes_of_kind {t : Token} {k : TokenKind} (h : t.terminal.kind? = some k) :
    t.nodes = [(Progress.word t).toNode k] := by
  rw [Token.nodes, h]
  rfl

theorem nodes_of_filtered {t : Token} (h : t.terminal.kind? = none) : t.nodes = [] := by
  rw [Token.nodes, h]

/-- A token that leaves no trace. -/
theorem Token.Is.derives_filtered {t : Token} {k : Terminal} (h : t.Is k) (hk : k.kind? = none) :
    Derives (.terminal k) [t] [] := by
  have hd := h.derives
  rwa [nodes_of_filtered (h.1 ▸ hk)] at hd

/-- A token that the tree keeps. -/
theorem Token.Is.derives_kept {t : Token} {k : Terminal} {kind : TokenKind} (h : t.Is k)
    (hk : k.kind? = some kind) : Derives (.terminal k) [t] [(Progress.word t).toNode kind] := by
  have hd := h.derives
  rwa [nodes_of_kind (h.1 ▸ hk)] at hd

theorem toNodes_append (as bs : List Expr) :
    Expr.toNodes (as ++ bs) = Expr.toNodes as ++ Expr.toNodes bs := by
  induction as with
  | nil => rfl
  | cons a as ih => simp only [List.cons_append, Expr.toNodes, ih]

theorem statements_append (as bs : List Statement) :
    Statement.toNodes (as ++ bs) = Statement.toNodes as ++ Statement.toNodes bs := by
  induction as with
  | nil => simp only [List.nil_append, Statement.toNodes]
  | cons a as ih => simp only [List.cons_append, Statement.toNodes, ih]

theorem Derives.single {a : Phrase} {ts : List Token} {ns : List Node} (h : Derives a ts ns) :
    Derives (.many a) ts ns := by
  simpa only [List.append_nil] using Derives.more h .none

theorem Derives.append_many {a : Phrase} {ts us : List Token} {ns ms : List Node}
    (h : Derives (.many a) ts ns) (h' : Derives (.many a) us ms) :
    Derives (.many a) (ts ++ us) (ns ++ ms) := by
  generalize hp : Phrase.many a = p at h
  induction h with
  | none =>
    cases hp
    exact h'
  | more hd _ _ ih =>
    cases hp
    rw [List.append_assoc, List.append_assoc]
    exact .more hd (ih rfl)
  | _ => simp at hp

theorem Derives.snoc {a : Phrase} {ts us : List Token} {ns ms : List Node}
    (h : Derives (.many a) ts ns) (h' : Derives a us ms) :
    Derives (.many a) (ts ++ us) (ns ++ ms) :=
  h.append_many h'.single

/-- A derivation by a production that builds a tree. -/
theorem Derives.tree {r : Rule} {l : Label} {p : Phrase} {ts : List Token} {ns : List Node}
    {s : Span} (mem : ⟨.tree l, p⟩ ∈ r.productions) (h : Derives p ts ns)
    (hs : spanOf ts = some s) : Derives (.rule r) ts [.tree l ns (.span s)] := by
  have hd := Derives.rule mem h
  rwa [Shaping.apply, placeOf_eq hs] at hd

/-- A derivation by a production that hands on what it is given. -/
theorem Derives.pass {r : Rule} {p : Phrase} {ts : List Token} {ns : List Node}
    (mem : ⟨.splice, p⟩ ∈ r.productions) (h : Derives p ts ns) : Derives (.rule r) ts ns :=
  Derives.rule mem h

/-- A derivation by a production that hands on a single node. -/
theorem Derives.passSingle {r : Rule} {l : Label} {p : Phrase} {ts : List Token} {n : Node}
    (mem : ⟨.spliceSingle l, p⟩ ∈ r.productions) (h : Derives p ts [n]) :
    Derives (.rule r) ts [n] :=
  Derives.rule mem h

/-! ## Expressions -/

/-- The rule of the expressions whose operators are of a level or bind more tightly. -/
def Level.rule : Level → Rule
  | .comparison => .expression
  | .sum => .sum
  | .product => .product

/-- The rule of the right operands of a level. -/
def Level.inner : Level → Rule
  | .comparison => .sum
  | .sum => .product
  | .product => .atom

def Level.terminal : Level → Terminal
  | .comparison => .compareOp
  | .sum => .addOp
  | .product => .mulOp

/-- The rule of a level hands on an operand or joins two with an operator. -/
theorem mem_operators {level : Level} {p : Production} (mem : p ∈ level.rule.productions) :
    (∃ l, p = ⟨.spliceSingle l, .rule level.inner⟩) ∨
      p = ⟨.tree level.label,
        .seq (.rule level.rule) (.seq (.terminal level.terminal) (.rule level.inner))⟩ := by
  cases level with
  | _ =>
    simp only [Level.rule, Rule.productions, List.mem_cons, List.not_mem_nil, or_false] at mem
    rcases mem with rfl | rfl
    · exact .inl ⟨_, rfl⟩
    · exact .inr rfl

theorem level_eq_of_level? {k : Terminal} {level : Level} (h : Progress.level? k = some level) :
    k = level.terminal := by
  unfold Progress.level? at h
  split at h <;> simp_all [Level.terminal] <;> subst h <;> rfl

theorem level_kind (level : Level) : level.terminal.kind? = some level.tokenKind := by
  cases level <;> rfl

theorem derives_inner {level : Level} {ts : List Token} {n : Node}
    (h : Derives (.rule level.inner) ts [n]) : Derives (.rule level.rule) ts [n] := by
  cases level <;>
    exact Derives.passSingle (by simp [Level.rule, Rule.productions, Level.inner]; rfl) h

theorem derives_binary {level : Level} {ts us : List Token} {lhs rhs : Expr} {t : Token}
    {s s' : Span} (hl : Derives (.rule level.rule) ts [lhs.toNode]) (hs : spanOf ts = some s)
    (ht : t.Is level.terminal) (hr : Derives (.rule level.inner) us [rhs.toNode])
    (hs' : spanOf us = some s') :
    Derives (.rule level.rule) (ts ++ t :: us)
      [(Expr.binary level lhs (Progress.word t) rhs (s.to s')).toNode] := by
  have hx : spanOf (ts ++ t :: us) = some (s.to s') := by
    rw [spanOf_append hs (spanOf_cons_of_some t hs')]
    rfl
  have hd := hl.seq ((ht.derives_kept (level_kind level)).seq hr)
  rw [Expr.toNode]
  refine Derives.tree (l := level.label) ?_ hd hx
  cases level <;> simp [Level.rule, Level.label, Level.terminal, Level.inner, Rule.productions]

theorem literal_kind {k : Terminal} {kind : LiteralKind} (h : Progress.literal? k = some kind) :
    k.kind? = some kind.tokenKind := by
  unfold Progress.literal? at h
  split at h <;> simp_all [Terminal.kind?] <;> subst h <;> rfl

theorem derives_literal {t : Token} {kind : LiteralKind} (ht : t.Spelled)
    (hk : Progress.literal? t.terminal = some kind) :
    Derives (.rule .atom) [t] [(Expr.literal kind (Progress.word t)).toNode] := by
  refine Derives.passSingle (l := .other "atom") (p := .rule .constant)
    (by simp [Rule.productions]) ?_
  have hd := Derives.terminal ht
  rw [nodes_of_kind (literal_kind hk)] at hd
  rw [Expr.toNode]
  refine Derives.tree ?_ hd (spanOf_singleton t)
  unfold Progress.literal? at hk
  split at hk <;> simp_all [Rule.productions]

theorem derives_name {t : Token} (ht : t.Is .identifier) :
    Derives (.rule .atom) [t] [(Expr.name (Progress.word t)).toNode] := by
  rw [Expr.toNode]
  exact Derives.tree (by simp [Rule.productions]) (ht.derives_kept rfl) (spanOf_singleton t)

theorem derives_negate {t : Token} {ts : List Token} {e : Expr} {s : Span} (ht : t.Is .negation)
    (h : Derives (.rule .atom) ts [e.toNode]) (hs : spanOf ts = some s) :
    Derives (.rule .atom) (t :: ts) [(Expr.negate e (t.span.to s)).toNode] := by
  rw [Expr.toNode]
  exact Derives.tree (by simp [Rule.productions]) ((ht.derives_filtered rfl).seq h)
    (spanOf_cons_of_some t hs)

theorem derives_paren {l r : Token} {ts : List Token} {n : Node} (hl : l.Is .leftParen)
    (h : Derives (.rule .expression) ts [n]) (hr : r.Is .rightParen) :
    Derives (.rule .atom) (l :: (ts ++ [r])) [n] :=
  Derives.passSingle (l := .other "atom") (by simp [Rule.productions])
    ((hl.derives_filtered rfl).seq (h.seq (hr.derives_filtered rfl)))

/-! ## Calls -/

def Phrase.arguments : Phrase :=
  .seq (.rule .expression) (.many (.seq (.terminal .comma) (.rule .expression)))

theorem args_single {ts : List Token} {n : Node} (h : Derives (.rule .expression) ts [n]) :
    Derives .arguments ts [n] := by
  have hd := h.seq (Derives.none (a := .seq (.terminal .comma) (.rule .expression)))
  rwa [List.append_nil, List.append_nil] at hd

theorem args_snoc {ts us : List Token} {ns : List Node} {n : Node} {c : Token}
    (h : Derives .arguments ts ns) (hc : c.Is .comma) (he : Derives (.rule .expression) us [n]) :
    Derives .arguments (ts ++ c :: us) (ns ++ [n]) := by
  cases h with
  | seq ha hb =>
    rw [List.append_assoc, List.append_assoc]
    exact ha.seq (hb.snoc ((hc.derives_filtered rfl).seq he))

theorem derives_call {t l r : Token} {ts : List Token} {args : List Expr}
    (ht : t.Is .identifier) (hl : l.Is .leftParen)
    (h : Derives (.optional .arguments) ts (Expr.toNodes args)) (hr : r.Is .rightParen) :
    Derives (.rule .functionCall) (t :: l :: (ts ++ [r]))
      [.tree .functionCall ((Progress.word t).toNode .identifier :: Expr.toNodes args)
        (.span (t.span.to r.span))] := by
  have hx := spanOf_between t r (l :: ts)
  have hd := (ht.derives_kept rfl).seq ((hl.derives_filtered rfl).seq
    (h.seq (hr.derives_filtered rfl)))
  rw [List.append_nil] at hd
  exact Derives.tree (by simp [Rule.productions, Phrase.arguments]) hd hx

theorem derives_callExpr {ts : List Token} {callee : Word} {args : List Expr} {s : Span}
    (h : Derives (.rule .functionCall) ts
      [.tree .functionCall (callee.toNode .identifier :: Expr.toNodes args) (.span s)]) :
    Derives (.rule .atom) ts [(Expr.call callee args s).toNode] := by
  rw [Expr.toNode]
  exact Derives.passSingle (l := .other "atom") (by simp [Rule.productions]) h

/-! ## Conditionals -/

def Keyword.rule : Keyword → Rule
  | ifWord | unlessWord => .ifBlock
  | whileWord | untilWord => .whileBlock

def Keyword.terminal : Keyword → Terminal
  | ifWord => .ifWord
  | unlessWord => .unlessWord
  | whileWord => .whileWord
  | untilWord => .untilWord

theorem keyword_terminal {k : Terminal} {w : Keyword} (h : Progress.keyword? k = some w) :
    k = w.terminal := by
  unfold Progress.keyword? at h
  split at h <;> simp_all [Keyword.terminal] <;> subst h <;> rfl

/-- The word that begins a conditional is kept, and its text is the keyword's own. -/
theorem keyword_nodes {t : Token} {w : Keyword} (h : t.Is w.terminal) :
    t.nodes = [.token w.tokenKind w.text (.span t.span)] := by
  obtain ⟨hk, hs⟩ := h
  have ht : String.ofList t.text = w.text := by
    rw [Token.Spelled, hk] at hs
    cases w <;> simp [Keyword.terminal, Terminal.Spells, Terminal.texts] at hs <;> rw [hs] <;> rfl
  have hkind : t.terminal.kind? = some w.tokenKind := by
    rw [hk]
    cases w <;> rfl
  rw [nodes_of_kind hkind, Word.toNode, Progress.word, ht]

/-- What may follow the body of a conditional. -/
def Phrase.elseBranch : Phrase := .optional (.seq (.terminal .elseWord) (.rule .elseBlock))

theorem derives_conditional {k : Token} {w : Keyword} {us vs ws : List Token} {condition : Expr}
    {body : Block} {otherwise : Otherwise} {s : Span} (hk : k.Is w.terminal)
    (hc : Derives (.rule .expression) us [condition.toNode])
    (hb : Derives (.rule .block) vs [body.toNode])
    (ho : Derives .elseBranch ws otherwise.toNodes)
    (hs : spanOf (k :: (us ++ (vs ++ ws))) = some s) :
    Derives (.rule w.rule) (k :: (us ++ (vs ++ ws)))
      [(Conditional.mk ⟨w, k.span, condition⟩ body otherwise s).toNode] := by
  have hd := hk.derives
  rw [keyword_nodes hk] at hd
  have hrest := hc.seq (hb.seq ho)
  rw [Conditional.toNode]
  cases w with
  | ifWord => exact Derives.tree (List.mem_singleton_self _) (hd.left.seq hrest) hs
  | unlessWord => exact Derives.tree (List.mem_singleton_self _) (hd.right.seq hrest) hs
  | whileWord => exact Derives.tree (List.mem_singleton_self _) (hd.left.seq hrest) hs
  | untilWord => exact Derives.tree (List.mem_singleton_self _) (hd.right.seq hrest) hs

/-- A conditional stands where a statement does. -/
theorem derives_line_conditional {c : Conditional} {w : Keyword} {ts : List Token}
    (h : Derives (.rule w.rule) ts [c.toNode]) :
    Derives (.rule .line) ts [(Statement.conditional c).toNode] := by
  rw [Statement.toNode]
  cases w <;> exact Derives.pass (by simp [Rule.productions, Keyword.rule]) h

theorem derives_elseBlock_chain {c : Conditional} {w : Keyword} {ts : List Token} {t : Token}
    (ht : t.Is .elseWord) (h : Derives (.rule w.rule) ts [c.toNode])
    (hs : spanOf ts = some c.span) :
    Derives .elseBranch (t :: ts) (Otherwise.chain c).toNodes := by
  rw [Otherwise.toNodes]
  refine .left ((ht.derives_filtered rfl).seq (Derives.tree ?_ h hs))
  cases w <;> simp [Keyword.rule, Rule.productions]

theorem derives_elseBlock_block {b : Block} {ts : List Token} {t : Token}
    (ht : t.Is .elseWord) (h : Derives (.rule .block) ts [b.toNode])
    (hs : spanOf ts = some b.span) :
    Derives .elseBranch (t :: ts) (Otherwise.block b).toNodes := by
  rw [Otherwise.toNodes]
  exact .left ((ht.derives_filtered rfl).seq (Derives.tree (by simp [Rule.productions]) h hs))

theorem derives_elseBlock_absent : Derives .elseBranch [] Otherwise.absent.toNodes := by
  rw [Otherwise.toNodes]
  exact .right .empty

/-! ## Statements -/

theorem derives_block {l r : Token} {ts : List Token} {statements : List Statement}
    (hl : l.Is .leftBrace) (h : Derives (.many (.rule .line)) ts (Statement.toNodes statements))
    (hr : r.Is .rightBrace) :
    Derives (.rule .block) (l :: (ts ++ [r]))
      [(Block.mk statements (l.span.to r.span)).toNode] := by
  have hd := (hl.derives_filtered rfl).seq (h.seq (hr.derives_filtered rfl))
  rw [List.append_nil] at hd
  rw [Block.toNode]
  exact Derives.tree (by simp [Rule.productions]) hd (spanOf_between l r ts)

theorem derives_assignment {t a : Token} {ts : List Token} {value : Expr} {s : Span}
    (ht : t.Is .identifier) (ha : a.Is .assign)
    (h : Derives (.rule .expression) ts [value.toNode]) (hs : spanOf ts = some s) :
    Derives (.rule .assignment) (t :: a :: ts)
      [(Statement.assign (Progress.word t) value (t.span.to s)).toNode] := by
  have hx : spanOf (t :: a :: ts) = some (t.span.to s) := by
    rw [spanOf_cons_of_some t (spanOf_cons_of_some a hs)]
    rfl
  rw [Statement.toNode]
  exact Derives.tree (by simp [Rule.productions])
    ((ht.derives_kept rfl).seq ((ha.derives_filtered rfl).seq h)) hx

def Phrase.simple : Phrase := .either (.rule .assignment) (.rule .functionCall)

theorem derives_line_simple {ts : List Token} {n : Node} (h : Derives .simple ts [n]) :
    Derives (.rule .line) ts [n] := by
  have hd := h.seq (Derives.right (a := .terminal .semicolon) .empty)
  rw [List.append_nil, List.append_nil] at hd
  exact Derives.pass (p := .rule .statement) (by simp [Rule.productions])
    (Derives.pass (List.mem_singleton_self _) hd)

theorem derives_line_ended {ts : List Token} {n : Node} {t : Token} (h : Derives .simple ts [n])
    (ht : t.Is .semicolon) : Derives (.rule .line) (ts ++ [t]) [n] := by
  have hd := h.seq (Derives.left (b := .empty) (ht.derives_filtered rfl))
  rw [List.append_nil] at hd
  exact Derives.pass (p := .rule .statement) (by simp [Rule.productions])
    (Derives.pass (List.mem_singleton_self _) hd)

end Scriptlet.Source
