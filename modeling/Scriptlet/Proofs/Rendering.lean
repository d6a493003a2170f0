import Scriptlet.Proofs.Lexing
import Scriptlet.Proofs.Reading.Complete
/-!
# Renderings

A script is a program apart from any source, and a rendering of it is a source that writes it down:
with parentheses where the ranks of operators ask for them and as many more as one likes, with or
without semicolons, and with gaps of any kind between the tokens. Main statements: every script has
a rendering (`renders_text`), and each rendering reads as the tree of its script
(`read_of_renders`).
-/

namespace Scriptlet.Source

/-! ## Scripts -/

/-- A name that is nowhere taken for a keyword. -/
structure Name where
  text : List Char
  spelled : Terminal.identifier.Spells text
  free : String.ofList text ∉ reserved

def LiteralKind.terminal : LiteralKind → Terminal
  | .integer => .integer
  | .float => .float
  | .string => .string
  | .trueWord => .trueWord
  | .falseWord => .falseWord
  | .nullWord => .nullWord

structure Constant where
  kind : LiteralKind
  text : List Char
  spelled : kind.terminal.Spells text

structure Operator (level : Level) where
  text : List Char
  spelled : level.terminal.Spells text

inductive Term where
  | constant (c : Constant)
  | name (n : Name)
  | call (callee : Name) (args : List Term)
  | negate (operand : Term)
  | binary (level : Level) (lhs : Term) (operator : Operator level) (rhs : Term)

mutual

inductive Sentence where
  | assign (target : Name) (value : Term)
  | call (callee : Name) (args : List Term)
  | choice (c : Choice)

inductive Choice where
  | mk (keyword : Keyword) (condition : Term) (body : List Sentence) (tail : Tail)

inductive Tail where
  | absent
  | block (body : List Sentence)
  | chain (c : Choice)

end

abbrev Script : Type := List Sentence

/-! ## Trees of scripts -/

def Name.toNode (n : Name) : Node := .token .identifier (String.ofList n.text) .unknown

mutual

def Term.toNode : Term → Node
  | .constant c =>
    .tree .constant [.token c.kind.tokenKind (String.ofList c.text) .unknown] .unknown
  | .name n => .tree .identifier [n.toNode] .unknown
  | .call callee args => .tree .functionCall (callee.toNode :: Term.toNodes args) .unknown
  | .negate operand => .tree .negate [operand.toNode] .unknown
  | .binary level lhs operator rhs =>
    .tree level.label
      [lhs.toNode, .token level.tokenKind (String.ofList operator.text) .unknown, rhs.toNode]
      .unknown

def Term.toNodes : List Term → List Node
  | [] => []
  | t :: ts => t.toNode :: Term.toNodes ts

end

mutual

def Sentence.toNode : Sentence → Node
  | .assign target value => .tree .assignment [target.toNode, value.toNode] .unknown
  | .call callee args => .tree .functionCall (callee.toNode :: Term.toNodes args) .unknown
  | .choice c => c.toNode

def Choice.toNode : Choice → Node
  | .mk keyword condition body tail =>
    .tree keyword.label
      (.token keyword.tokenKind keyword.text .unknown :: condition.toNode ::
        .tree .block (Sentence.toNodes body) .unknown :: tail.toNodes) .unknown

def Tail.toNodes : Tail → List Node
  | .absent => []
  | .block body => [.tree .elseBlock [.tree .block (Sentence.toNodes body) .unknown] .unknown]
  | .chain c => [.tree .elseBlock [c.toNode] .unknown]

def Sentence.toNodes : List Sentence → List Node
  | [] => []
  | s :: ss => s.toNode :: Sentence.toNodes ss

end

def Script.toNode (script : Script) : Node := .tree .program (Sentence.toNodes script) .unknown

/-! ## Writing -/

/-- How tightly the operators of a level bind; whatever is no operator binds with rank three. -/
def Level.rank : Level → Nat
  | .comparison => 0
  | .sum => 1
  | .product => 2

/-- A part of a script, with the least rank that may stand bare in a term's place. -/
inductive Part where
  | term (rank : Nat) (t : Term)
  | arguments (ts : List Term)
  | sentence (s : Sentence)
  | sentences (ss : List Sentence)
  | choice (c : Choice)
  | block (ss : List Sentence)
  | tail (t : Tail)

def Token.Names (t : Token) (n : Name) : Prop := t.terminal = .identifier ∧ t.text = n.text

inductive Ending : List Token → Prop where
  | bare : Ending []
  | semicolon {t : Token} (ht : t.Is .semicolon) : Ending [t]

/-- Tokens that write a part of a script. Parentheses may stand around any term, and have to where
a term's rank is too low. -/
inductive Writes : Part → List Token → Prop where
  | paren {r : Nat} {t : Term} {ts : List Token} {a b : Token} (ha : a.Is .leftParen)
      (h : Writes (.term 0 t) ts) (hb : b.Is .rightParen) : Writes (.term r t) (a :: (ts ++ [b]))
  | constant {r : Nat} {c : Constant} {t : Token} (hk : t.terminal = c.kind.terminal)
      (hx : t.text = c.text) : Writes (.term r (.constant c)) [t]
  | name {r : Nat} {n : Name} {t : Token} (ht : t.Names n) : Writes (.term r (.name n)) [t]
  | call {r : Nat} {callee : Name} {args : List Term} {t a b : Token} {ts : List Token}
      (ht : t.Names callee) (ha : a.Is .leftParen) (h : Writes (.arguments args) ts)
      (hb : b.Is .rightParen) : Writes (.term r (.call callee args)) (t :: a :: (ts ++ [b]))
  | negate {r : Nat} {x : Term} {t : Token} {ts : List Token} (ht : t.Is .negation)
      (h : Writes (.term 3 x) ts) : Writes (.term r (.negate x)) (t :: ts)
  | binary {r : Nat} {level : Level} {x y : Term} {operator : Operator level} {t : Token}
      {ts us : List Token} (hr : r ≤ level.rank) (hx : Writes (.term level.rank x) ts)
      (hk : t.terminal = level.terminal) (ht : t.text = operator.text)
      (hy : Writes (.term (level.rank + 1) y) us) :
      Writes (.term r (.binary level x operator y)) (ts ++ t :: us)
  | noArguments : Writes (.arguments []) []
  | lastArgument {x : Term} {ts : List Token} (h : Writes (.term 0 x) ts) :
      Writes (.arguments [x]) ts
  | argument {x y : Term} {xs : List Term} {t : Token} {ts us : List Token}
      (h : Writes (.term 0 x) ts) (ht : t.Is .comma) (rest : Writes (.arguments (y :: xs)) us) :
      Writes (.arguments (x :: y :: xs)) (ts ++ t :: us)
  | assign {target : Name} {value : Term} {t a : Token} {ts es : List Token} (ht : t.Names target)
      (ha : a.Is .assign) (h : Writes (.term 0 value) ts) (he : Ending es) :
      Writes (.sentence (.assign target value)) (t :: a :: ts ++ es)
  | callSentence {callee : Name} {args : List Term} {t a b : Token} {ts es : List Token}
      (ht : t.Names callee) (ha : a.Is .leftParen) (h : Writes (.arguments args) ts)
      (hb : b.Is .rightParen) (he : Ending es) :
      Writes (.sentence (.call callee args)) (t :: a :: (ts ++ [b]) ++ es)
  | choiceSentence {c : Choice} {ts : List Token} (h : Writes (.choice c) ts) :
      Writes (.sentence (.choice c)) ts
  | choice {keyword : Keyword} {condition : Term} {body : List Sentence} {tail : Tail} {t : Token}
      {ts us vs : List Token} (ht : t.Is keyword.terminal) (hc : Writes (.term 0 condition) ts)
      (hb : Writes (.block body) us) (htail : Writes (.tail tail) vs) :
      Writes (.choice (.mk keyword condition body tail)) (t :: (ts ++ (us ++ vs)))
  | absent : Writes (.tail .absent) []
  | elseBlock {body : List Sentence} {t : Token} {ts : List Token} (ht : t.Is .elseWord)
      (h : Writes (.block body) ts) : Writes (.tail (.block body)) (t :: ts)
  | elseChain {c : Choice} {t : Token} {ts : List Token} (ht : t.Is .elseWord)
      (h : Writes (.choice c) ts) : Writes (.tail (.chain c)) (t :: ts)
  | block {ss : List Sentence} {a b : Token} {ts : List Token} (ha : a.Is .leftBrace)
      (h : Writes (.sentences ss) ts) (hb : b.Is .rightBrace) :
      Writes (.block ss) (a :: (ts ++ [b]))
  | nothing : Writes (.sentences []) []
  | more {s : Sentence} {ss : List Sentence} {ts us : List Token} (h : Writes (.sentence s) ts)
      (rest : Writes (.sentences ss) us) : Writes (.sentences (s :: ss)) (ts ++ us)

/-- A source that writes a script, with gaps between its tokens, and with one wherever two words
would touch. -/
def Script.Renders (script : Script) (source : String) : Prop :=
  ∃ pieces last, source.toList = written pieces ++ last ∧ (∀ x ∈ pieces, Gap x.gap) ∧
    Trailing last ∧ Apart pieces ∧ Writes (.sentences script) (placed .start pieces)

/-! ## Every script has a rendering -/

/-- A terminal with the first of its texts. -/
def Terminal.piece (k : Terminal) : Piece := ⟨[], k, (k.texts.headD "").toList⟩

def Name.piece (n : Name) : Piece := ⟨[], .identifier, n.text⟩

def enclosed (ps : List Piece) : List Piece :=
  Terminal.leftParen.piece :: (ps ++ [Terminal.rightParen.piece])

mutual

def Term.pieces : Term → List Piece
  | .constant c => [⟨[], c.kind.terminal, c.text⟩]
  | .name n => [n.piece]
  | .call callee args => callee.piece :: enclosed (Term.listPieces args)
  | .negate x => Terminal.negation.piece :: enclosed x.pieces
  | .binary level x operator y =>
    enclosed x.pieces ++ ⟨[], level.terminal, operator.text⟩ :: enclosed y.pieces

def Term.listPieces : List Term → List Piece
  | [] => []
  | [x] => x.pieces
  | x :: y :: xs => x.pieces ++ Terminal.comma.piece :: Term.listPieces (y :: xs)

end

mutual

def Sentence.pieces : Sentence → List Piece
  | .assign target value => target.piece :: Terminal.assign.piece :: value.pieces
  | .call callee args => callee.piece :: enclosed (Term.listPieces args)
  | .choice c => c.pieces

def Choice.pieces : Choice → List Piece
  | .mk keyword condition body tail =>
    keyword.terminal.piece :: (condition.pieces ++ (Terminal.leftBrace.piece ::
      (Sentence.listPieces body ++ [Terminal.rightBrace.piece]) ++ tail.pieces))

def Tail.pieces : Tail → List Piece
  | .absent => []
  | .block body =>
    Terminal.elseWord.piece :: Terminal.leftBrace.piece ::
      (Sentence.listPieces body ++ [Terminal.rightBrace.piece])
  | .chain c => Terminal.elseWord.piece :: c.pieces

def Sentence.listPieces : List Sentence → List Piece
  | [] => []
  | s :: ss => s.pieces ++ Sentence.listPieces ss

end

def spaced (ps : List Piece) : List Piece := ps.map fun x => { x with gap := [' '] }

/-- Pieces that write a part wherever they are placed, with blanks between them. -/
def Part.WrittenBy (part : Part) (ps : List Piece) : Prop :=
  ∀ p, Writes part (placed p (spaced ps))

theorem spaced_cons (x : Piece) (ps : List Piece) :
    spaced (x :: ps) = { x with gap := [' '] } :: spaced ps := rfl

theorem spaced_append (ps qs : List Piece) : spaced (ps ++ qs) = spaced ps ++ spaced qs :=
  List.map_append

theorem is_piece {k : Terminal} (hk : k.texts ≠ []) (span : Span) :
    Token.Is ⟨k, k.piece.text, span⟩ k := by
  refine ⟨rfl, spells_of_mem_texts ?_⟩
  cases h : k.texts with
  | nil => exact absurd h hk
  | cons w ws => exact List.mem_cons_self

section

variable {ps qs : List Piece}

theorem written_enclosed {r : Nat} {t : Term} (h : (Part.term 0 t).WrittenBy ps) :
    (Part.term r t).WrittenBy (enclosed ps) := by
  intro p
  rw [enclosed, spaced_cons, placed, spaced_append, placed_append]
  exact .paren (is_piece (by decide) _) (h _) (is_piece (by decide) _)

theorem written_call {callee : Name} {args : List Term} {part : Part}
    (hpart : ∀ {t a b : Token} {ts : List Token}, t.Names callee → a.Is .leftParen →
      Writes (.arguments args) ts → b.Is .rightParen → Writes part (t :: a :: (ts ++ [b])))
    (h : (Part.arguments args).WrittenBy ps) : part.WrittenBy (callee.piece :: enclosed ps) := by
  intro p
  rw [enclosed, spaced_cons, placed, spaced_cons, placed, spaced_append, placed_append]
  exact hpart ⟨rfl, rfl⟩ (is_piece (by decide) _) (h _) (is_piece (by decide) _)

theorem written_block {ss : List Sentence} (h : (Part.sentences ss).WrittenBy ps) :
    (Part.block ss).WrittenBy
      (Terminal.leftBrace.piece :: (ps ++ [Terminal.rightBrace.piece])) := by
  intro p
  rw [spaced_cons, placed, spaced_append, placed_append]
  exact .block (is_piece (by decide) _) (h _) (is_piece (by decide) _)

end

/-- An assignment without a semicolon. -/
theorem writes_assign {target : Name} {value : Term} {t a : Token} {ts : List Token}
    (ht : t.Names target) (ha : a.Is .assign) (h : Writes (.term 0 value) ts) :
    Writes (.sentence (.assign target value)) (t :: a :: ts) := by
  have hw := Writes.assign ht ha h .bare
  rwa [List.append_nil] at hw

/-- A call without a semicolon. -/
theorem writes_callSentence {callee : Name} {args : List Term} {t a b : Token} {ts : List Token}
    (ht : t.Names callee) (ha : a.Is .leftParen) (h : Writes (.arguments args) ts)
    (hb : b.Is .rightParen) : Writes (.sentence (.call callee args)) (t :: a :: (ts ++ [b])) := by
  have hw := Writes.callSentence ht ha h hb .bare
  rwa [List.append_nil] at hw

mutual

theorem Term.written : ∀ t : Term, (Part.term 0 t).WrittenBy t.pieces
  | .constant c => by
    intro p
    rw [Term.pieces]
    exact .constant rfl rfl
  | .name n => by
    intro p
    rw [Term.pieces]
    exact .name ⟨rfl, rfl⟩
  | .call callee args => by
    rw [Term.pieces]
    exact written_call .call (Term.written_list args)
  | .negate x => by
    intro p
    rw [Term.pieces, spaced_cons, placed]
    exact .negate (is_piece (by decide) _) (written_enclosed x.written _)
  | .binary level x operator y => by
    intro p
    rw [Term.pieces, spaced_append, placed_append, spaced_cons, placed]
    exact .binary (Nat.zero_le _) (written_enclosed x.written _) rfl rfl
      (written_enclosed y.written _)

theorem Term.written_list : ∀ ts : List Term, (Part.arguments ts).WrittenBy (Term.listPieces ts)
  | [] => by
    intro p
    rw [Term.listPieces]
    exact .noArguments
  | [x] => by
    intro p
    rw [Term.listPieces]
    exact .lastArgument (x.written p)
  | x :: y :: xs => by
    intro p
    rw [Term.listPieces, spaced_append, placed_append, spaced_cons, placed]
    exact .argument (x.written p) (is_piece (by decide) _) (Term.written_list (y :: xs) _)

end

mutual

theorem Sentence.written : ∀ s : Sentence, (Part.sentence s).WrittenBy s.pieces
  | .assign target value => by
    intro p
    rw [Sentence.pieces, spaced_cons, placed, spaced_cons, placed]
    exact writes_assign ⟨rfl, rfl⟩ (is_piece (by decide) _) (value.written _)
  | .call callee args => by
    rw [Sentence.pieces]
    exact written_call writes_callSentence (Term.written_list args)
  | .choice c => by
    intro p
    rw [Sentence.pieces]
    exact .choiceSentence (c.written p)

theorem Choice.written : ∀ c : Choice, (Part.choice c).WrittenBy c.pieces
  | .mk keyword condition body tail => by
    intro p
    rw [Choice.pieces, spaced_cons, placed, spaced_append, placed_append, spaced_append,
      placed_append]
    refine .choice (is_piece ?_ _) (condition.written _)
      (written_block (Sentence.written_list body) _) (tail.written _)
    cases keyword <;> decide

theorem Tail.written : ∀ t : Tail, (Part.tail t).WrittenBy t.pieces
  | .absent => by
    intro p
    rw [Tail.pieces]
    exact .absent
  | .block body => by
    intro p
    rw [Tail.pieces, spaced_cons, placed]
    exact .elseBlock (is_piece (by decide) _) (written_block (Sentence.written_list body) _)
  | .chain c => by
    intro p
    rw [Tail.pieces, spaced_cons, placed]
    exact .elseChain (is_piece (by decide) _) (c.written _)

theorem Sentence.written_list :
    ∀ ss : List Sentence, (Part.sentences ss).WrittenBy (Sentence.listPieces ss)
  | [] => by
    intro p
    rw [Sentence.listPieces]
    exact .nothing
  | s :: ss => by
    intro p
    rw [Sentence.listPieces, spaced_append, placed_append]
    exact .more (s.written p) (Sentence.written_list ss _)

end

/-- A script with a blank before each token. -/
def Script.text (script : Script) : String :=
  String.ofList (written (spaced (Sentence.listPieces script)))

/-- Every script has a rendering. -/
theorem renders_text (script : Script) : script.Renders script.text := by
  have hgap : ∀ x ∈ spaced (Sentence.listPieces script), x.gap = [' '] := by
    intro x hx
    obtain ⟨y, _, rfl⟩ := List.mem_map.mp hx
    rfl
  refine ⟨spaced (Sentence.listPieces script), [], ?_, ?_, .gap .nil, ?_,
    Sentence.written_list script .start⟩
  · rw [Script.text, String.toList_ofList, List.append_nil]
  · intro x hx
    rw [hgap x hx]
    exact .blank rfl .nil
  · refine List.isChain_iff_getElem.mpr fun i hi _ _ => ?_
    rw [hgap _ (List.getElem_mem _)]
    exact List.cons_ne_nil _ _

/-! ## What is written derives -/

theorem unplacedAll_eq_map (ns : List Node) :
    Node.unplaced.unplacedAll ns = ns.map Node.unplaced := by
  induction ns with
  | nil => rfl
  | cons n ns ih => rw [Node.unplaced.unplacedAll, ih, List.map_cons]

theorem unplaced_tree (l : Label) (ns : List Node) (p : Place) :
    (Node.tree l ns p).unplaced = .tree l (ns.map Node.unplaced) .unknown := by
  rw [Node.unplaced, unplacedAll_eq_map]

/-- Tokens that derive from a phrase and leave nodes that are some nodes once placed. -/
def Phrase.Yields (a : Phrase) (ts : List Token) (ns : List Node) : Prop :=
  ∃ ms, Derives a ts ms ∧ ms.map Node.unplaced = ns

section

variable {a b : Phrase} {ts us : List Token} {ns ms : List Node}

theorem Phrase.Yields.seq (h : a.Yields ts ns) (h' : b.Yields us ms) :
    (Phrase.seq a b).Yields (ts ++ us) (ns ++ ms) := by
  obtain ⟨xs, hx, rfl⟩ := h
  obtain ⟨ys, hy, rfl⟩ := h'
  exact ⟨xs ++ ys, hx.seq hy, List.map_append⟩

theorem Phrase.Yields.left (h : a.Yields ts ns) : (Phrase.either a b).Yields ts ns := by
  obtain ⟨xs, hx, rfl⟩ := h
  exact ⟨xs, hx.left, rfl⟩

theorem Phrase.Yields.right (h : b.Yields ts ns) : (Phrase.either a b).Yields ts ns := by
  obtain ⟨xs, hx, rfl⟩ := h
  exact ⟨xs, hx.right, rfl⟩

theorem Phrase.Yields.more (h : a.Yields ts ns) (h' : (Phrase.many a).Yields us ms) :
    (Phrase.many a).Yields (ts ++ us) (ns ++ ms) := by
  obtain ⟨xs, hx, rfl⟩ := h
  obtain ⟨ys, hy, rfl⟩ := h'
  exact ⟨xs ++ ys, hx.more hy, List.map_append⟩

theorem yields_empty : Phrase.empty.Yields [] [] := ⟨[], .empty, rfl⟩

theorem yields_none : (Phrase.many a).Yields [] [] := ⟨[], .none, rfl⟩

theorem Token.Is.yields {t : Token} {k : Terminal} (h : t.Is k) (hk : k.kind? = none) :
    (Phrase.terminal k).Yields [t] [] :=
  ⟨[], h.derives_filtered hk, rfl⟩

theorem yields_kept {t : Token} {k : Terminal} {kind : TokenKind} (h : t.Is k)
    (hk : k.kind? = some kind) :
    (Phrase.terminal k).Yields [t] [.token kind (String.ofList t.text) .unknown] :=
  ⟨_, h.derives_kept hk, rfl⟩

theorem Token.Names.yields {t : Token} {n : Name} (h : t.Names n) :
    (Phrase.terminal .identifier).Yields [t] [n.toNode] := by
  have his : t.Is .identifier := by
    refine ⟨h.1, ?_⟩
    rw [Token.Spelled, h.1, h.2]
    exact n.spelled
  rw [Name.toNode, ← h.2]
  exact yields_kept his rfl

theorem Phrase.Yields.tree {r : Rule} {l : Label} (mem : ⟨.tree l, a⟩ ∈ r.productions)
    (h : a.Yields ts ns) : (Phrase.rule r).Yields ts [.tree l ns .unknown] := by
  obtain ⟨xs, hx, rfl⟩ := h
  refine ⟨_, .rule mem hx, ?_⟩
  rw [Shaping.apply, List.map_singleton, unplaced_tree]

theorem Phrase.Yields.pass {r : Rule} (mem : ⟨.splice, a⟩ ∈ r.productions) (h : a.Yields ts ns) :
    (Phrase.rule r).Yields ts ns := by
  obtain ⟨xs, hx, rfl⟩ := h
  exact ⟨xs, .pass mem hx, rfl⟩

theorem Phrase.Yields.passSingle {r : Rule} {l : Label} {n : Node}
    (mem : ⟨.spliceSingle l, a⟩ ∈ r.productions) (h : a.Yields ts [n]) :
    (Phrase.rule r).Yields ts [n] := by
  obtain ⟨xs, hx, hn⟩ := h
  obtain ⟨x, rfl, rfl⟩ := List.map_eq_singleton_iff.mp hn
  exact ⟨[x], .passSingle mem hx, rfl⟩

end

/-- The rule of the terms that may stand bare where a rank is asked for. -/
def rankRule : Nat → Rule
  | 0 => .expression
  | 1 => .sum
  | 2 => .product
  | _ => .atom

theorem rankRule_level (level : Level) : rankRule level.rank = level.rule := by
  cases level <;> rfl

theorem rankRule_inner (level : Level) : rankRule (level.rank + 1) = level.inner := by
  cases level <;> rfl

/-- What stands bare where a rank is asked for does so where a lower one is. -/
theorem yields_lower {r r' : Nat} (hle : r ≤ r') {ts : List Token} {n : Node}
    (h : (Phrase.rule (rankRule r')).Yields ts [n]) : (Phrase.rule (rankRule r)).Yields ts [n] := by
  induction hle with
  | refl => exact h
  | @step k hk ih =>
    refine ih ?_
    match k with
    | 0 => exact .passSingle (l := .other "expression") (by simp [rankRule, Rule.productions]) h
    | 1 => exact .passSingle (l := .other "sum") (by simp [rankRule, Rule.productions]) h
    | 2 => exact .passSingle (l := .other "product") (by simp [rankRule, Rule.productions]) h
    | k + 3 => exact h

theorem yields_atom {r : Nat} {ts : List Token} {n : Node}
    (h : (Phrase.rule .atom).Yields ts [n]) : (Phrase.rule (rankRule r)).Yields ts [n] :=
  yields_lower (Nat.le_add_right r 3) h

def Part.phrase : Part → Phrase
  | .term r _ => .rule (rankRule r)
  | .arguments [] => .empty
  | .arguments (_ :: _) => .arguments
  | .sentence _ => .rule .line
  | .sentences _ => .many (.rule .line)
  | .choice (.mk keyword ..) => .rule keyword.rule
  | .block _ => .rule .block
  | .tail _ => .elseBranch

def Part.nodes : Part → List Node
  | .term _ t => [t.toNode]
  | .arguments ts => Term.toNodes ts
  | .sentence s => [s.toNode]
  | .sentences ss => Sentence.toNodes ss
  | .choice c => [c.toNode]
  | .block ss => [.tree .block (Sentence.toNodes ss) .unknown]
  | .tail t => t.toNodes

theorem yields_arguments {args : List Term} {ts : List Token}
    (h : (Part.arguments args).phrase.Yields ts (Term.toNodes args)) :
    (Phrase.optional .arguments).Yields ts (Term.toNodes args) := by
  cases args with
  | nil => exact .right h
  | cons x xs => exact .left h

theorem yields_call {callee : Name} {args : List Term} {t a b : Token} {ts : List Token}
    (ht : t.Names callee) (ha : a.Is .leftParen)
    (h : (Part.arguments args).phrase.Yields ts (Term.toNodes args)) (hb : b.Is .rightParen) :
    (Phrase.rule .functionCall).Yields (t :: a :: (ts ++ [b]))
      [.tree .functionCall (callee.toNode :: Term.toNodes args) .unknown] := by
  have hd := ht.yields.seq ((ha.yields rfl).seq ((yields_arguments h).seq (hb.yields rfl)))
  rw [List.append_nil] at hd
  exact hd.tree (by simp [Rule.productions, Phrase.arguments])

theorem yields_simple {ts es : List Token} {n : Node} (h : Phrase.simple.Yields ts [n])
    (he : Ending es) : (Phrase.rule .line).Yields (ts ++ es) [n] := by
  have hend : (Phrase.optional (.terminal .semicolon)).Yields es [] := by
    cases he with
    | bare => exact .right yields_empty
    | semicolon ht => exact .left (ht.yields rfl)
  have hd := h.seq hend
  rw [List.append_nil] at hd
  exact .pass (a := .rule .statement) (by simp [Rule.productions])
    (.pass (List.mem_singleton_self _) hd)

theorem yields_choice {keyword : Keyword} {t : Token} {ts us vs : List Token} {n : Node}
    {ns ms : List Node} (ht : t.Is keyword.terminal) (hc : (Phrase.rule .expression).Yields ts [n])
    (hb : (Phrase.rule .block).Yields us ns) (ho : Phrase.elseBranch.Yields vs ms) :
    (Phrase.rule keyword.rule).Yields (t :: (ts ++ (us ++ vs)))
      [.tree keyword.label (.token keyword.tokenKind keyword.text .unknown :: n :: (ns ++ ms))
        .unknown] := by
  have hk : (Phrase.terminal keyword.terminal).Yields [t]
      [.token keyword.tokenKind keyword.text .unknown] := by
    refine ⟨t.nodes, ht.derives, ?_⟩
    rw [keyword_nodes ht]
    rfl
  have hrest := hc.seq (hb.seq ho)
  cases keyword with
  | ifWord => exact (hk.left.seq hrest).tree (List.mem_singleton_self _)
  | unlessWord => exact (hk.right.seq hrest).tree (List.mem_singleton_self _)
  | whileWord => exact (hk.left.seq hrest).tree (List.mem_singleton_self _)
  | untilWord => exact (hk.right.seq hrest).tree (List.mem_singleton_self _)

/-- What is written derives, and leaves the tree of what it writes. -/
theorem Writes.yields {part : Part} {ts : List Token} (h : Writes part ts) :
    part.phrase.Yields ts part.nodes := by
  induction h with
  | paren ha _ hb ih =>
    refine yields_atom (.passSingle (l := .other "atom")
      (a := .seq (.terminal .leftParen) (.seq (.rule .expression) (.terminal .rightParen)))
      (by simp [Rule.productions]) ?_)
    exact (ha.yields rfl).seq (ih.seq (hb.yields rfl))
  | @constant r c t hk hx =>
    refine yields_atom (.passSingle (l := .other "atom") (a := .rule .constant)
      (by simp [Rule.productions]) ?_)
    have his : t.Is c.kind.terminal := by
      refine ⟨hk, ?_⟩
      rw [Token.Spelled, hk, hx]
      exact c.spelled
    have hkind : c.kind.terminal.kind? = some c.kind.tokenKind := by cases c.kind <;> rfl
    rw [Term.toNode, ← hx]
    refine (yields_kept his hkind).tree ?_
    cases c.kind <;> simp [Rule.productions, LiteralKind.terminal]
  | name ht =>
    refine yields_atom ?_
    rw [Term.toNode]
    exact ht.yields.tree (by simp [Rule.productions])
  | call ht ha _ hb ih =>
    refine yields_atom (.passSingle (l := .other "atom") (a := .rule .functionCall)
      (by simp [Rule.productions]) ?_)
    rw [Term.toNode]
    exact yields_call ht ha ih hb
  | negate ht _ ih =>
    refine yields_atom ?_
    rw [Term.toNode]
    exact ((ht.yields rfl).seq ih).tree (by simp [Rule.productions, Part.phrase, rankRule])
  | @binary r level x y operator t ts us hr _ hk ht _ ihx ihy =>
    have his : t.Is level.terminal := by
      refine ⟨hk, ?_⟩
      rw [Token.Spelled, hk, ht]
      exact operator.spelled
    have hkind : level.terminal.kind? = some level.tokenKind := by cases level <;> rfl
    refine yields_lower hr ?_
    rw [Part.phrase, rankRule_level] at ihx
    rw [Part.phrase, rankRule_inner] at ihy
    rw [rankRule_level, Term.toNode, ← ht]
    refine (ihx.seq ((yields_kept his hkind).seq ihy)).tree ?_
    cases level <;>
      simp [Rule.productions, Level.rule, Level.label, Level.terminal, Level.inner]
  | noArguments => exact yields_empty
  | lastArgument _ ih =>
    have hd := ih.seq (yields_none (a := .seq (.terminal .comma) (.rule .expression)))
    rwa [List.append_nil, List.append_nil] at hd
  | argument _ ht _ ih ihrest =>
    obtain ⟨xs, hx, hns⟩ := ihrest
    cases hx with
    | seq hfirst hmany =>
      obtain ⟨ys, hy, hms⟩ := ih
      have hd := hy.seq (((ht.derives_filtered rfl).seq hfirst).more hmany)
      simp only [List.append_assoc] at hd
      refine ⟨_, hd, ?_⟩
      rw [List.map_append, hms]
      exact congrArg _ hns
  | assign ht ha _ he ih =>
    refine yields_simple (.left ?_) he
    rw [Sentence.toNode]
    exact (ht.yields.seq ((ha.yields rfl).seq ih)).tree
      (by simp [Rule.productions, Part.phrase, rankRule])
  | callSentence ht ha _ hb he ih =>
    refine yields_simple (.right ?_) he
    rw [Sentence.toNode]
    exact yields_call ht ha ih hb
  | @choiceSentence c ts _ ih =>
    obtain ⟨keyword, condition, body, tail⟩ := c
    refine .pass (a := .rule keyword.rule) ?_ ?_
    · cases keyword <;> simp [Rule.productions, Keyword.rule]
    · rw [Part.nodes, Sentence.toNode]
      exact ih
  | choice ht _ _ _ ihc ihb iht =>
    rw [Part.nodes, Choice.toNode]
    exact yields_choice ht ihc ihb iht
  | absent =>
    rw [Part.nodes, Tail.toNodes]
    exact .right yields_empty
  | elseBlock ht _ ih =>
    rw [Part.nodes, Tail.toNodes]
    exact .left ((ht.yields rfl).seq (ih.tree (by simp [Rule.productions, Part.phrase])))
  | @elseChain c t ts ht _ ih =>
    obtain ⟨keyword, condition, body, tail⟩ := c
    rw [Part.nodes, Tail.toNodes]
    refine .left ((ht.yields rfl).seq (ih.tree ?_))
    cases keyword <;> simp [Rule.productions, Part.phrase, Keyword.rule]
  | block ha _ hb ih =>
    have hd := (ha.yields rfl).seq (ih.seq (hb.yields rfl))
    rw [List.append_nil] at hd
    exact hd.tree (by simp [Rule.productions, Part.phrase])
  | nothing =>
    rw [Part.nodes, Sentence.toNodes]
    exact yields_none
  | more _ _ ih ihrest =>
    rw [Part.nodes, Sentence.toNodes]
    exact ih.more ihrest

/-- A token with a text of its terminal, which no mode takes for a keyword if it is a name. -/
def Token.Proper (t : Token) : Prop :=
  t.Spelled ∧ (t.terminal = .identifier → String.ofList t.text ∉ reserved)

theorem Token.Is.proper {t : Token} {k : Terminal} (h : t.Is k) (hk : k ≠ .identifier) : t.Proper :=
  ⟨h.2, fun e => absurd (h.1.symm.trans e) hk⟩

theorem Token.Names.proper {t : Token} {n : Name} (h : t.Names n) : t.Proper := by
  rw [Token.Proper, Token.Spelled, h.1, h.2]
  exact ⟨n.spelled, fun _ => n.free⟩

theorem Ending.proper {es : List Token} (h : Ending es) : ∀ t ∈ es, t.Proper := by
  cases h with
  | bare => exact fun t ht => absurd ht List.not_mem_nil
  | semicolon ht => exact List.forall_mem_singleton.mpr (ht.proper (by decide))

theorem Writes.proper {part : Part} {ts : List Token} (h : Writes part ts) :
    ∀ t ∈ ts, t.Proper := by
  induction h with
  | paren ha _ hb ih =>
    simp only [List.forall_mem_cons, List.forall_mem_append]
    exact ⟨ha.proper (by decide), ih, hb.proper (by decide), List.forall_mem_nil _⟩
  | @constant r c t hk hx =>
    refine List.forall_mem_singleton.mpr ⟨?_, fun e => ?_⟩
    · rw [Token.Spelled, hk, hx]
      exact c.spelled
    · have hne : c.kind.terminal ≠ .identifier := by cases c.kind <;> decide
      exact absurd (hk.symm.trans e) hne
  | name ht => exact List.forall_mem_singleton.mpr ht.proper
  | call ht ha _ hb ih =>
    simp only [List.forall_mem_cons, List.forall_mem_append]
    exact ⟨ht.proper, ha.proper (by decide), ih, hb.proper (by decide), List.forall_mem_nil _⟩
  | negate ht _ ih => exact List.forall_mem_cons.mpr ⟨ht.proper (by decide), ih⟩
  | @binary r level x y operator t ts us hr _ hk ht _ ihx ihy =>
    simp only [List.forall_mem_cons, List.forall_mem_append]
    refine ⟨ihx, ⟨?_, fun e => ?_⟩, ihy⟩
    · rw [Token.Spelled, hk, ht]
      exact operator.spelled
    · have hne : level.terminal ≠ .identifier := by cases level <;> decide
      exact absurd (hk.symm.trans e) hne
  | noArguments => exact fun t ht => absurd ht List.not_mem_nil
  | lastArgument _ ih => exact ih
  | argument _ ht _ ih ihrest =>
    simp only [List.forall_mem_cons, List.forall_mem_append]
    exact ⟨ih, ht.proper (by decide), ihrest⟩
  | assign ht ha _ he ih =>
    simp only [List.forall_mem_cons, List.forall_mem_append]
    exact ⟨⟨ht.proper, ha.proper (by decide), ih⟩, he.proper⟩
  | callSentence ht ha _ hb he ih =>
    simp only [List.forall_mem_cons, List.forall_mem_append]
    exact ⟨⟨ht.proper, ha.proper (by decide), ih, hb.proper (by decide), List.forall_mem_nil _⟩,
      he.proper⟩
  | choiceSentence _ ih => exact ih
  | @choice keyword condition body tail t ts us vs ht _ _ _ ihc ihb iht =>
    have hk : keyword.terminal ≠ .identifier := by cases keyword <;> decide
    simp only [List.forall_mem_cons, List.forall_mem_append]
    exact ⟨ht.proper hk, ihc, ihb, iht⟩
  | absent => exact fun t ht => absurd ht List.not_mem_nil
  | elseBlock ht _ ih => exact List.forall_mem_cons.mpr ⟨ht.proper (by decide), ih⟩
  | elseChain ht _ ih => exact List.forall_mem_cons.mpr ⟨ht.proper (by decide), ih⟩
  | block ha _ hb ih =>
    simp only [List.forall_mem_cons, List.forall_mem_append]
    exact ⟨ha.proper (by decide), ih, hb.proper (by decide), List.forall_mem_nil _⟩
  | nothing => exact fun t ht => absurd ht List.not_mem_nil
  | more _ _ ih ihrest => exact List.forall_mem_append.mpr ⟨ih, ihrest⟩

/-! ## Reading renderings -/

theorem terminals_placed (p : Position) (ps : List Piece) :
    terminals (placed p ps) = ps.map Piece.terminal := by
  induction ps generalizing p with
  | nil => rfl
  | cons x ps ih => exact congrArg _ (ih _)

/-- Whatever holds of the terminals and texts of placed tokens holds of the pieces. -/
theorem forall_placed {P : Terminal → List Char → Prop} {p : Position} {ps : List Piece}
    (h : ∀ t ∈ placed p ps, P t.terminal t.text) : ∀ x ∈ ps, P x.terminal x.text := by
  induction ps generalizing p with
  | nil => exact fun x hx => absurd hx List.not_mem_nil
  | cons x ps ih =>
    rw [placed] at h
    obtain ⟨hx, hps⟩ := List.forall_mem_cons.mp h
    exact List.forall_mem_cons.mpr ⟨hx, ih hps⟩

/-- Tokens that derive a program make up its source, whatever gaps are between them. -/
theorem read_of_derives {ps : List Piece} {last : List Char} {source : String} {n : Node}
    (hsource : source.toList = written ps ++ last) (hscans : Scans .line ps last)
    (h : Derives (.rule .program) (placed .start ps) [n]) :
    ∃ program, read source = .ok program ∧ program.toNode = n := by
  obtain ⟨p, program, hread, hfinish, hn⟩ := Progress.readAll_of_derives h
  exact ⟨program, read_of_scans hsource hscans hread hfinish, hn⟩

/-- Every rendering of a script reads as the script's tree. -/
theorem read_of_renders {script : Script} {source : String} (h : script.Renders source) :
    ∃ program, read source = .ok program ∧ program.toNode.unplaced = script.toNode := by
  obtain ⟨pieces, last, hsource, hgaps, hlast, hapart, hwrites⟩ := h
  obtain ⟨ns, hd, hns⟩ := hwrites.yields.tree (r := .program) (List.mem_singleton_self _)
  obtain ⟨n, rfl, hn⟩ := List.map_eq_singleton_iff.mp hns
  have hproper := hwrites.proper
  have hfits : ∀ x ∈ pieces, x.Fits := fun x hx =>
    ⟨hgaps x hx, forall_placed (P := Terminal.Spells) (fun t ht => (hproper t ht).1) x hx⟩
  have hmeets : Mode.line.Meets (pieces.map Piece.terminal) := by
    rw [← terminals_placed .start pieces]
    exact (leads_of_derives hd .line (by decide)).1
  have hscans := scans_of_apart hmeets hfits
    (forall_placed (P := fun k text => k = .identifier → String.ofList text ∉ reserved)
      fun t ht => (hproper t ht).2) hapart hlast
  obtain ⟨program, hread, hprogram⟩ := read_of_derives hsource hscans hd
  refine ⟨program, hread, ?_⟩
  rw [hprogram, hn]
  rfl

/-- A call with superfluous parentheses and a comment, and without any blank. -/
theorem read_of_renders_dense :
    ∃ script : Script, script.Renders "f(-(x))#c\n" ∧
      script.toNode = .tree .program [.tree .functionCall [.token .identifier "f" .unknown,
        .tree .negate [.tree .identifier [.token .identifier "x" .unknown] .unknown] .unknown]
        .unknown] .unknown ∧
      ∃ program, read "f(-(x))#c\n" = .ok program ∧ program.toNode.unplaced = script.toNode := by
  let f : Name := ⟨['f'], ⟨'f', [], rfl, rfl, List.forall_mem_nil _⟩, by decide⟩
  let x : Name := ⟨['x'], ⟨'x', [], rfl, rfl, List.forall_mem_nil _⟩, by decide⟩
  let pieces : List Piece :=
    [⟨[], .identifier, ['f']⟩, ⟨[], .leftParen, ['(']⟩, ⟨[], .negation, ['-']⟩,
      ⟨[], .leftParen, ['(']⟩, ⟨[], .identifier, ['x']⟩, ⟨[], .rightParen, [')']⟩,
      ⟨[], .rightParen, [')']⟩]
  have hrenders : Script.Renders [.call f [.negate (.name x)]] "f(-(x))#c\n" := by
    refine ⟨pieces, ['#', 'c', '\n'], rfl, ?_, .gap (@Gap.comment ['c'] [] (by decide) .nil),
      ?_, ?_⟩
    · simpa [pieces] using Gap.nil
    · simp [Apart, pieces, Terminal.isWord]
    · have hwrites : ∀ a b c d e g h : Token, a.Names f → b.Is .leftParen → c.Is .negation →
          d.Is .leftParen → e.Names x → g.Is .rightParen → h.Is .rightParen →
          Writes (.sentences [.call f [.negate (.name x)]]) [a, b, c, d, e, g, h] :=
        fun a b c d e g h ha hb hc hd he hg hh =>
          .more (.callSentence ha hb
            (.lastArgument (.negate hc (.paren hd (.name he) hg))) hh .bare) .nothing
      exact hwrites _ _ _ _ _ _ _ ⟨rfl, rfl⟩ (is_piece (by decide) _) (is_piece (by decide) _)
        (is_piece (by decide) _) ⟨rfl, rfl⟩ (is_piece (by decide) _) (is_piece (by decide) _)
  exact ⟨_, hrenders, rfl, read_of_renders hrenders⟩

end Scriptlet.Source
