import Scriptlet.Proofs.Layout
/-!
# What is left to read

Wherever the reading of a program stands, a few more tokens make it a program: an operand if one has
to follow, and then the marks that close what is open, from within. These tokens are one character
long and are recognised wherever they stand (`closers`), so what has been read of a source can
always be completed. Main statement: every progress closes (`closes`).
-/

namespace Scriptlet.Source

/-- The tokens that complete a program, each with its one character. -/
def closers : List (Terminal × Char) :=
  [(.integer, '0'), (.leftParen, '('), (.rightParen, ')'), (.leftBrace, '\x7b'),
    (.rightBrace, '\x7d')]

def Piece.Closer (x : Piece) : Prop := ∃ k c, (k, c) ∈ closers ∧ x = ⟨['\n'], k, [c]⟩

/-- Closers that are read one after the other from some position complete what has been read. -/
def Progress.Closes (q : Progress) : Prop :=
  ∀ p, ∃ ps, (∀ x ∈ ps, x.Closer) ∧
    ∃ r, q.readAll (placed p ps) = .ok r ∧ r.finish.isSome = true

namespace Progress

variable {q : Progress} {scope : Scope} {outer : List (Opening × Scope)}

theorem closes_of_finish (h : q.finish.isSome = true) : q.Closes :=
  fun _ => ⟨[], List.forall_mem_nil _, q, rfl, h⟩

/-- A progress closes if a closer leads on to one that does. -/
theorem closes_of_step (k : Terminal) (c : Char) (mem : (k, c) ∈ closers)
    (h : ∀ t : Token, t.terminal = k → ∃ r, q.step t = some r ∧ r.Closes) : q.Closes := by
  intro p
  let first := p.advance ['\n']
  obtain ⟨r, hstep, hr⟩ := h ⟨k, [c], ⟨first, first.advance [c]⟩⟩ rfl
  obtain ⟨ps, hps, final, hread, hfinish⟩ := hr (first.advance [c])
  refine ⟨⟨['\n'], k, [c]⟩ :: ps, List.forall_mem_cons.mpr ⟨⟨k, c, mem, rfl⟩, hps⟩, final, ?_,
    hfinish⟩
  rw [placed, readAll, hstep]
  exact hread

/-! ## Blocks -/

/-- The closing of a block leads on to the statement list around it. -/
theorem closeBlock_cons (scope : Scope) (opening : Opening) (around : Scope)
    (outer : List (Opening × Scope)) (point : Point) (t : Token) :
    ∃ r, closeBlock ⟨scope, (opening, around) :: outer, point⟩ t = some r ∧ r.outer = outer ∧
      (r.point = .line false ∨ ∃ arm arms, r.point = .closed arm arms) := by
  cases opening with
  | body arms guard brace => exact ⟨_, rfl, rfl, .inr ⟨_, _, rfl⟩⟩
  | branch arm arms brace => exact ⟨_, rfl, rfl, .inl rfl⟩

/-- A block can be closed if what is then read in the statement list around it closes. -/
theorem exists_closeBlock (h : ∀ scope point,
      ((∃ b, point = .line b) ∨ ∃ arm arms, point = .closed arm arms) →
        Closes ⟨scope, outer, point⟩)
    (scope : Scope) (x : Opening × Scope) (point : Point) (t : Token) :
    ∃ r, closeBlock ⟨scope, x :: outer, point⟩ t = some r ∧ r.Closes := by
  obtain ⟨opening, around⟩ := x
  obtain ⟨⟨scope', outer', point'⟩, hr, rfl, hpoint⟩ :=
    closeBlock_cons scope opening around outer point t
  refine ⟨_, hr, h _ _ ?_⟩
  obtain rfl | ⟨arm, arms, rfl⟩ := hpoint
  · exact .inl ⟨_, rfl⟩
  · exact .inr ⟨_, _, rfl⟩

/-- Where a statement list may end, the closing marks of the open blocks follow. -/
theorem closes_of_rest (hrest : (∃ b, q.point = .line b) ∨ ∃ arm arms, q.point = .closed arm arms) :
    q.Closes := by
  obtain ⟨scope, outer, point⟩ := q
  induction outer generalizing scope point with
  | nil =>
    obtain ⟨b, rfl⟩ | ⟨arm, arms, rfl⟩ := hrest
    · exact closes_of_finish rfl
    · exact closes_of_finish rfl
  | cons x outer ih =>
    refine closes_of_step .rightBrace '\x7d' (by decide) fun t ht => ?_
    obtain ⟨b, rfl⟩ | ⟨arm, arms, rfl⟩ := hrest
    · simp only [step, stepLine, ht]
      exact exists_closeBlock (fun _ _ => ih _ _) _ x _ t
    · simp only [step, stepClosed, stepLine, ht, addArms]
      exact exists_closeBlock (fun _ _ => ih _ _) _ x _ t

/-! ## Expressions -/

/-- A complete expression, once the parentheses and the argument lists around it are closed, is
followed by what completes its statement. -/
theorem closes_operator (scope : Scope) (outer : List (Opening × Scope)) (e : Expecting)
    (o : Operand) (name : Option Word) : Closes ⟨scope, outer, .operator e o name⟩ := by
  obtain ⟨purpose, around, pending⟩ := e
  induction around generalizing pending o name with
  | nil =>
    cases purpose with
    | assign target =>
      cases outer with
      | nil => exact closes_of_finish rfl
      | cons x outer =>
        refine closes_of_step .rightBrace '\x7d' (by decide) fun t ht => ?_
        simp only [step, stepOperator, ht, level?, stepComplete, stepLine]
        exact exists_closeBlock
          (fun scope point => closes_of_rest (q := ⟨scope, outer, point⟩)) _ x _ t
    | guard arms keyword span =>
      refine closes_of_step .leftBrace '\x7b' (by decide) fun t ht => ?_
      simp only [step, stepOperator, ht, level?, stepComplete, if_true]
      exact ⟨_, rfl, closes_of_rest (.inl ⟨false, rfl⟩)⟩
    | argument callee before =>
      refine closes_of_step .rightParen ')' (by decide) fun t ht => ?_
      simp only [step, stepOperator, ht, level?, stepComplete, closeCall]
      exact ⟨_, rfl, closes_of_rest (.inl ⟨true, rfl⟩)⟩
  | cons x around ih =>
    obtain ⟨surround, waiting⟩ := x
    refine closes_of_step .rightParen ')' (by decide) fun t ht => ?_
    cases surround with
    | paren mark =>
      simp only [step, stepOperator, ht, level?, stepComplete, if_true]
      exact ⟨_, rfl, ih _ _ _⟩
    | argument callee before =>
      simp only [step, stepOperator, ht, level?, stepComplete, closeCall]
      exact ⟨_, rfl, ih _ _ _⟩

/-- Where an operand has to follow, a number does. -/
theorem closes_operand (scope : Scope) (outer : List (Opening × Scope)) (e : Expecting)
    (closable : Bool) : Closes ⟨scope, outer, .operand e closable⟩ := by
  refine closes_of_step .integer '0' (by decide) fun t ht => ?_
  simp only [step, stepOperand, ht, literal?, Option.map_some]
  exact ⟨_, rfl, closes_operator _ _ _ _ _⟩

/-! ## All that may be read -/

/-- However far the reading has come, it can be completed. -/
theorem closes (q : Progress) : q.Closes := by
  obtain ⟨scope, outer, point⟩ := q
  cases point with
  | line semicolon => exact closes_of_rest (.inl ⟨semicolon, rfl⟩)
  | named name =>
    refine closes_of_step .leftParen '(' (by decide) fun t ht => ?_
    simp only [step, stepNamed, ht]
    exact ⟨_, rfl, closes_operand _ _ _ _⟩
  | operand e closable => exact closes_operand scope outer e closable
  | operator e o name => exact closes_operator scope outer e o name
  | closed arm arms => exact closes_of_rest (.inr ⟨arm, arms, rfl⟩)
  | branch arm arms =>
    refine closes_of_step .leftBrace '\x7b' (by decide) fun t ht => ?_
    simp only [step, stepBranch, ht, if_true]
    exact ⟨_, rfl, closes_of_rest (.inl ⟨false, rfl⟩)⟩

end Progress

/-- Closers are recognised in any mode, with a newline behind them. -/
theorem recognize_closer {k : Terminal} {c : Char} (mem : (k, c) ∈ closers) (m : Mode)
    (cs : List Char) : recognize m c ('\n' :: cs) = some (k, 0) := by
  simp only [closers, List.mem_cons, Prod.mk.injEq, List.not_mem_nil, or_false] at mem
  obtain ⟨rfl, rfl⟩ | ⟨rfl, rfl⟩ | ⟨rfl, rfl⟩ | ⟨rfl, rfl⟩ | ⟨rfl, rfl⟩ := mem <;> rfl

theorem scans_closers {ps : List Piece} (h : ∀ x ∈ ps, x.Closer) (m : Mode) :
    Scans m ps ['\n'] := by
  induction ps generalizing m with
  | nil => exact .done (.gap (.blank rfl .nil))
  | cons x ps ih =>
    obtain ⟨⟨k, c, mem, rfl⟩, hps⟩ := List.forall_mem_cons.mp h
    refine .token (.blank rfl .nil) ?_ (ih hps _)
    -- the next closer, or the end, begins with a newline
    obtain ⟨cs, hcs⟩ : ∃ cs, written ps ++ ['\n'] = '\n' :: cs := by
      cases ps with
      | nil => exact ⟨[], rfl⟩
      | cons y ps =>
        obtain ⟨⟨k', c', -, rfl⟩, -⟩ := List.forall_mem_cons.mp hps
        exact ⟨_, rfl⟩
    rw [List.nil_append, hcs]
    exact recognize_closer mem m cs

end Scriptlet.Source
