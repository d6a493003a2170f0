import Scriptlet.Source.Reading
/-!
# The grammar

The rules of the language as data, the texts of each terminal, and the derivations of a rule: which
tokens they take up and which nodes they leave. A derivation keeps the words that mean something and
filters the rest, yet the place of a tree covers all of its tokens. Main statement: a property of
rules that every production preserves holds of every derivation (`Derives.holds`).
-/

namespace Scriptlet.Source

/-! ## Terminals -/

/-- The texts of a terminal that has only a few. -/
def Terminal.texts : Terminal → List String
  | .trueWord => ["true"]
  | .falseWord => ["false"]
  | .nullWord => ["null"]
  | .ifWord => ["if"]
  | .unlessWord => ["unless"]
  | .whileWord => ["while"]
  | .untilWord => ["until"]
  | .elseWord => ["else"]
  | .compareOp => ["==", "!=", "<=", ">=", "<", ">"]
  | .addOp => ["+", "-"]
  | .mulOp => ["*", "/", "%"]
  | .negation => ["-"]
  | .assign => ["="]
  | .semicolon => [";"]
  | .comma => [","]
  | .leftParen => ["("]
  | .rightParen => [")"]
  | .leftBrace => ["\x7b"]
  | .rightBrace => ["\x7d"]
  | .identifier | .integer | .float | .string => []

def IsDigits (cs : List Char) : Prop := cs ≠ [] ∧ ∀ c ∈ cs, c.isDigit = true

def Terminal.Spells : Terminal → List Char → Prop
  | .identifier, cs =>
    ∃ c tail, cs = c :: tail ∧ isWordStart c = true ∧ ∀ d ∈ tail, isWordChar d = true
  | .integer, cs => IsDigits cs
  | .float, cs => ∃ whole part, cs = whole ++ '.' :: part ∧ IsDigits whole ∧ IsDigits part
  | .string, cs =>
    ∃ mark inside, (mark = '\x22' ∨ mark = '\x27') ∧ mark ∉ inside ∧ cs = mark :: (inside ++ [mark])
  | k, cs => cs ∈ k.texts.map String.toList

/-- The kind of the tokens of a terminal that a tree keeps. -/
def Terminal.kind? : Terminal → Option TokenKind
  | .identifier => some .identifier
  | .integer => some .integer
  | .float => some .float
  | .string => some .string
  | .trueWord => some .trueWord
  | .falseWord => some .falseWord
  | .nullWord => some .nullWord
  | .ifWord => some .ifWord
  | .unlessWord => some .unlessWord
  | .whileWord => some .whileWord
  | .untilWord => some .untilWord
  | .compareOp => some .compareOp
  | .addOp => some .addOp
  | .mulOp => some .mulOp
  | .elseWord | .negation | .assign | .semicolon | .comma | .leftParen | .rightParen
  | .leftBrace | .rightBrace => none

def Token.Spelled (t : Token) : Prop := t.terminal.Spells t.text

def Token.nodes (t : Token) : List Node :=
  match t.terminal.kind? with
  | some k => [.token k (String.ofList t.text) (.span t.span)]
  | none => []

/-- From the start of the first of some tokens to the end of the last. -/
def spanOf : List Token → Option Span
  | [] => none
  | t :: ts =>
    some (match spanOf ts with
      | none => t.span
      | some s => t.span.to s)

/-- The place that a tree takes from its tokens. -/
def placeOf (ts : List Token) : Place :=
  match spanOf ts with
  | none => .unknown
  | some s => .span s

theorem spanOf_singleton (t : Token) : spanOf [t] = some t.span := rfl

theorem spanOf_cons_of_some {ts : List Token} {s : Span} (t : Token) (h : spanOf ts = some s) :
    spanOf (t :: ts) = some (t.span.to s) := by
  rw [spanOf, h]

theorem spanOf_eq_none {ts : List Token} : spanOf ts = none ↔ ts = [] := by
  cases ts with
  | nil => simp [spanOf]
  | cons t ts => simp [spanOf]

theorem spanOf_append {ts us : List Token} {s s' : Span} (h : spanOf ts = some s)
    (h' : spanOf us = some s') : spanOf (ts ++ us) = some (s.to s') := by
  induction ts generalizing s with
  | nil => simp [spanOf] at h
  | cons t ts ih =>
    cases hs : spanOf ts with
    | none =>
      obtain rfl := spanOf_eq_none.mp hs
      rw [spanOf_singleton, Option.some.injEq] at h
      rw [List.singleton_append, spanOf_cons_of_some t h', h]
    | some r =>
      rw [spanOf_cons_of_some t hs, Option.some.injEq] at h
      rw [List.cons_append, spanOf_cons_of_some t (ih hs), ← h]
      rfl

theorem spanOf_snoc {ts : List Token} {s : Span} (t : Token) (h : spanOf ts = some s) :
    spanOf (ts ++ [t]) = some (s.to t.span) :=
  spanOf_append h (spanOf_singleton t)

/-- Tokens in front do not move the end. -/
theorem spanOf_append_last (ts : List Token) {us : List Token} {s : Span} (h : spanOf us = some s) :
    ∃ s', spanOf (ts ++ us) = some s' ∧ s'.last = s.last := by
  cases hts : spanOf ts with
  | none =>
    obtain rfl := spanOf_eq_none.mp hts
    exact ⟨s, h, rfl⟩
  | some r => exact ⟨r.to s, spanOf_append hts h, rfl⟩

theorem first_of_spanOf {t : Token} {ts : List Token} {s : Span} (h : spanOf (t :: ts) = some s) :
    s.first = t.span.first := by
  rw [spanOf, Option.some.injEq] at h
  rw [← h]
  split <;> rfl

theorem spanOf_between (t r : Token) (ts : List Token) :
    spanOf (t :: (ts ++ [r])) = some (t.span.to r.span) := by
  induction ts generalizing t with
  | nil => rfl
  | cons u ts ih =>
    rw [List.cons_append, spanOf_cons_of_some t (ih u)]
    rfl

theorem placeOf_eq {ts : List Token} {s : Span} (h : spanOf ts = some s) :
    placeOf ts = .span s := by
  rw [placeOf, h]

/-! ## Rules -/

inductive Rule where
  | program | line | statement | block | assignment | functionCall
  | ifBlock | whileBlock | elseBlock
  | expression | sum | product | atom | constant
  deriving DecidableEq, Repr

/-- What the right side of a production asks for. -/
inductive Phrase where
  | terminal (k : Terminal)
  | rule (r : Rule)
  | empty
  | seq (a b : Phrase)
  | either (a b : Phrase)
  | many (a : Phrase)
  deriving Repr

def Phrase.optional (a : Phrase) : Phrase := .either a .empty

/-- What a production makes of the nodes of its parts. -/
inductive Shaping where
  | tree (l : Label)
  /-- The nodes are handed to the rule around. -/
  | splice
  /-- A single node is handed to the rule around. -/
  | spliceSingle (l : Label)
  deriving Repr

def Shaping.apply (s : Shaping) (ts : List Token) (ns : List Node) : List Node :=
  match s with
  | .tree l => [.tree l ns (placeOf ts)]
  | .splice => ns
  | .spliceSingle l => if ns.length = 1 then ns else [.tree l ns (placeOf ts)]

structure Production where
  shaping : Shaping
  phrase : Phrase
  deriving Repr

/-- A conditional of one of two keywords: keyword, condition, body, and perhaps an else branch. -/
def Phrase.conditional (a b : Terminal) : Phrase :=
  .seq (.either (.terminal a) (.terminal b)) (.seq (.rule .expression) (.seq (.rule .block)
    (.optional (.seq (.terminal .elseWord) (.rule .elseBlock)))))

/-- The alternatives of each rule. -/
def Rule.productions : Rule → List Production
  | .program => [⟨.tree .program, .many (.rule .line)⟩]
  | .line =>
    [⟨.splice, .rule .statement⟩, ⟨.splice, .rule .ifBlock⟩, ⟨.splice, .rule .whileBlock⟩]
  | .statement =>
    [⟨.splice, .seq (.either (.rule .assignment) (.rule .functionCall))
      (.optional (.terminal .semicolon))⟩]
  | .block =>
    [⟨.tree .block, .seq (.terminal .leftBrace)
      (.seq (.many (.rule .line)) (.terminal .rightBrace))⟩]
  | .assignment =>
    [⟨.tree .assignment, .seq (.terminal .identifier)
      (.seq (.terminal .assign) (.rule .expression))⟩]
  | .functionCall =>
    [⟨.tree .functionCall, .seq (.terminal .identifier) (.seq (.terminal .leftParen)
      (.seq (.optional (.seq (.rule .expression)
          (.many (.seq (.terminal .comma) (.rule .expression)))))
        (.terminal .rightParen)))⟩]
  | .ifBlock => [⟨.tree .ifBlock, .conditional .ifWord .unlessWord⟩]
  | .whileBlock => [⟨.tree .whileBlock, .conditional .whileWord .untilWord⟩]
  | .elseBlock =>
    [⟨.tree .elseBlock, .rule .block⟩, ⟨.tree .elseBlock, .rule .ifBlock⟩,
     ⟨.tree .elseBlock, .rule .whileBlock⟩]
  | .expression =>
    [⟨.spliceSingle (.other "expression"), .rule .sum⟩,
     ⟨.tree .comparison, .seq (.rule .expression) (.seq (.terminal .compareOp) (.rule .sum))⟩]
  | .sum =>
    [⟨.spliceSingle (.other "sum"), .rule .product⟩,
     ⟨.tree .additive, .seq (.rule .sum) (.seq (.terminal .addOp) (.rule .product))⟩]
  | .product =>
    [⟨.spliceSingle (.other "product"), .rule .atom⟩,
     ⟨.tree .multiplicative, .seq (.rule .product) (.seq (.terminal .mulOp) (.rule .atom))⟩]
  | .atom =>
    [⟨.spliceSingle (.other "atom"), .rule .constant⟩,
     ⟨.tree .identifier, .terminal .identifier⟩,
     ⟨.spliceSingle (.other "atom"), .rule .functionCall⟩,
     ⟨.tree .negate, .seq (.terminal .negation) (.rule .atom)⟩,
     ⟨.spliceSingle (.other "atom"),
       .seq (.terminal .leftParen) (.seq (.rule .expression) (.terminal .rightParen))⟩]
  | .constant =>
    [.integer, .float, .string, .trueWord, .falseWord, .nullWord].map fun k =>
      ⟨.tree .constant, .terminal k⟩

/-! ## Derivations -/

/-- Tokens that derive from a phrase, with the nodes that the derivation leaves. -/
inductive Derives : Phrase → List Token → List Node → Prop where
  | terminal {t : Token} (h : t.Spelled) : Derives (.terminal t.terminal) [t] t.nodes
  | rule {r : Rule} {p : Production} {ts : List Token} {ns : List Node} (mem : p ∈ r.productions)
      (h : Derives p.phrase ts ns) : Derives (.rule r) ts (p.shaping.apply ts ns)
  | empty : Derives .empty [] []
  | seq {a b : Phrase} {ts us : List Token} {ns ms : List Node} (ha : Derives a ts ns)
      (hb : Derives b us ms) : Derives (.seq a b) (ts ++ us) (ns ++ ms)
  | left {a b : Phrase} {ts : List Token} {ns : List Node} (h : Derives a ts ns) :
      Derives (.either a b) ts ns
  | right {a b : Phrase} {ts : List Token} {ns : List Node} (h : Derives b ts ns) :
      Derives (.either a b) ts ns
  | none {a : Phrase} : Derives (.many a) [] []
  | more {a : Phrase} {ts us : List Token} {ns ms : List Node} (h : Derives a ts ns)
      (rest : Derives (.many a) us ms) : Derives (.many a) (ts ++ us) (ns ++ ms)

/-- Any number of pieces, one after the other, that each satisfy a relation. -/
inductive Repeats (R : List Token → List Node → Prop) : List Token → List Node → Prop where
  | none : Repeats R [] []
  | more {ts us : List Token} {ns ms : List Node} (h : R ts ns) (rest : Repeats R us ms) :
      Repeats R (ts ++ us) (ns ++ ms)

/-- What a phrase says of tokens and nodes if `M` says it of the rules in the phrase. -/
def Phrase.Holds (M : Rule → List Token → List Node → Prop) :
    Phrase → List Token → List Node → Prop
  | .terminal k, ts, ns => ∃ t : Token, t.terminal = k ∧ t.Spelled ∧ ts = [t] ∧ ns = t.nodes
  | .rule r, ts, ns => M r ts ns
  | .empty, ts, ns => ts = [] ∧ ns = []
  | .seq a b, ts, ns =>
    ∃ ts₁ ns₁ ts₂ ns₂, a.Holds M ts₁ ns₁ ∧ b.Holds M ts₂ ns₂ ∧ ts = ts₁ ++ ts₂ ∧ ns = ns₁ ++ ns₂
  | .either a b, ts, ns => a.Holds M ts ns ∨ b.Holds M ts ns
  | .many a, ts, ns => Repeats (a.Holds M) ts ns

/-- Induction over derivations, with a case for each production. -/
theorem Derives.holds {M : Rule → List Token → List Node → Prop}
    (step : ∀ r, ∀ p ∈ r.productions, ∀ ts ns, p.phrase.Holds M ts ns →
      M r ts (p.shaping.apply ts ns))
    {a : Phrase} {ts : List Token} {ns : List Node} (h : Derives a ts ns) : a.Holds M ts ns := by
  induction h with
  | terminal h => exact ⟨_, rfl, h, rfl, rfl⟩
  | rule mem _ ih => exact step _ _ mem _ _ ih
  | empty => exact ⟨rfl, rfl⟩
  | seq _ _ iha ihb => exact ⟨_, _, _, _, iha, ihb, rfl, rfl⟩
  | left _ ih => exact Or.inl ih
  | right _ ih => exact Or.inr ih
  | none => exact .none
  | more _ _ ih ihrest => exact .more ih ihrest

end Scriptlet.Source
