import Scriptlet.Fault
import Scriptlet.Source.Program
/-!
# What nodes demand

What a label requires of the children of its node: how many there are, and of which kind the one is
that has to be a token. The rest may be anything. A token on its own has to be a name or a literal.
The requirements are a table (`Label.demand`), with the fault of each that is not met
(`Node.misfit?`). Main statements: a node has no such fault exactly if it meets the requirements
(`misfit?_eq_none_iff`), and the fault says nothing of the other children (`misfit?_of_sameFrame`).
-/

namespace Scriptlet

open Source (Keyword Level)

/-! ## Requirements -/

def literalKinds : List TokenKind :=
  [.integer, .float, .string, .trueWord, .falseWord, .nullWord]

/-- The numbers of children that will do, and the fault of any other. -/
structure Count where
  admits : Nat → Bool
  fault : Nat → Fault

/-- The child that has to be a token, the kinds that will do, and the fault of any other child. -/
structure Key where
  index : Nat
  kinds : List TokenKind
  fault : Node → Fault

/-- What a label requires: where there is no count any number of children will do, and where there
is no key any children. -/
structure Demand where
  count? : Option Count
  key? : Option Key

namespace Key

def name (d : Defect) : Key := ⟨0, [.identifier], fun _ => .malformed d⟩

/-- A word or an operator of one of some kinds. -/
def word (index : Nat) (kinds : List TokenKind) : Key :=
  ⟨index, kinds, fun found => .malformed (.wrongToken kinds found)⟩

def literal : Key where
  index := 0
  kinds := literalKinds
  fault
    | .token kind text _ => .unsupportedLiteral kind text
    | .tree .. => .malformed .constant

end Key

namespace Demand

def nothing : Demand := ⟨none, none⟩

def exactly (count : Nat) (d : Defect) (key? : Option Key) : Demand :=
  ⟨some ⟨(· == count), fun _ => .malformed d⟩, key?⟩

def binary (kind : TokenKind) : Demand :=
  ⟨some ⟨(· == 3), fun count => .malformed (.binary count)⟩, some (.word 1 [kind])⟩

/-- A keyword, a condition and a body, and one more child at most. -/
def conditional (label : Label) (kinds : List TokenKind) : Demand where
  count? := some ⟨fun count => count == 3 || count == 4, fun _ => .malformed (.conditional label)⟩
  key? := some (.word 0 kinds)

end Demand

/-- What each label requires. A label without a meaning cannot be met. -/
def Label.demand : Label → Demand
  | .program | .block => .nothing
  | .assignment => .exactly 2 .assignment (some (.name .assignmentTarget))
  | .functionCall => ⟨some ⟨(0 < ·), fun _ => .malformed .call⟩, some (.name .calleeName)⟩
  | .identifier => .exactly 1 .reference (some (.name .referenceName))
  | .constant => .exactly 1 .constant (some .literal)
  | .additive => .binary .addOp
  | .multiplicative => .binary .mulOp
  | .comparison => .binary .compareOp
  | .negate => .exactly 1 .negation none
  | .ifBlock => .conditional .ifBlock [.ifWord, .unlessWord]
  | .whileBlock => .conditional .whileBlock [.whileWord, .untilWord]
  | .elseBlock => .exactly 1 .elseClause none
  | .other name => ⟨some ⟨fun _ => false, fun _ => .unknownNode (.other name)⟩, none⟩

/-- A node meets what its label requires; a token on its own is a name or a literal. -/
def Node.Fits : Node → Prop
  | .token kind _ _ => kind = .identifier ∨ kind ∈ literalKinds
  | .tree label kids _ =>
    (∀ count ∈ label.demand.count?, count.admits kids.length = true) ∧
      ∀ key ∈ label.demand.key?, ∃ found kind,
        kids[key.index]? = some found ∧ found.kind? = some kind ∧ kind ∈ key.kinds

def Demand.miscount? (d : Demand) (count : Nat) : Option Fault :=
  d.count?.bind fun c => if c.admits count then none else some (c.fault count)

def Demand.mistake? (d : Demand) (kids : List Node) : Option Fault :=
  d.key?.bind fun key => kids[key.index]?.bind fun found =>
    if found.kind?.any key.kinds.contains then none else some (key.fault found)

/-- The fault of a node that does not meet what its label requires; the number of children comes
first. -/
def Node.misfit? : Node → Option Fault
  | .token kind text _ =>
    if kind = .identifier ∨ kind ∈ literalKinds then none
    else some (.unsupportedLiteral kind text)
  | .tree label kids _ => (label.demand.miscount? kids.length).or (label.demand.mistake? kids)

/-- A fault that a node has by itself: its shape, a label without a meaning, or a kind of literal
without one. -/
def Fault.Structural (f : Fault) : Prop :=
  f.faultClass = .shape ∨ (∃ l, f = .unknownNode l) ∨ ∃ kind raw, f = .unsupportedLiteral kind raw

/-- Under a label, two lists of children are as many and have the same child where a token has to
be. -/
structure SameFrame (label : Label) (kids kids' : List Node) : Prop where
  length : kids'.length = kids.length
  key : ∀ key ∈ label.demand.key?, kids'[key.index]? = kids[key.index]?

/-! ## Families of labels -/

/-- The kinds of the words that begin a conditional of the same label. -/
def wordKinds : Keyword → List TokenKind
  | .ifWord | .unlessWord => [.ifWord, .unlessWord]
  | .whileWord | .untilWord => [.whileWord, .untilWord]

theorem mem_wordKinds {w : Keyword} {kind : TokenKind} (h : kind ∈ wordKinds w) :
    ∃ v : Keyword, v.label = w.label ∧ kind = v.tokenKind := by
  cases w with
  | ifWord | unlessWord =>
    simp only [wordKinds, List.mem_cons, List.not_mem_nil, or_false] at h
    exact h.elim (fun h => ⟨.ifWord, rfl, h⟩) fun h => ⟨.unlessWord, rfl, h⟩
  | whileWord | untilWord =>
    simp only [wordKinds, List.mem_cons, List.not_mem_nil, or_false] at h
    exact h.elim (fun h => ⟨.whileWord, rfl, h⟩) fun h => ⟨.untilWord, rfl, h⟩

theorem demand_binary (level : Level) : level.label.demand = .binary level.tokenKind := by
  cases level <;> rfl

theorem demand_conditional (w : Keyword) :
    w.label.demand = .conditional w.label (wordKinds w) := by
  cases w <;> rfl

/-! ## Faults -/

theorem Fault.Structural.native {f : Fault} (h : f.Structural) : f.isNative = true := by
  rcases h with h | ⟨l, rfl⟩ | ⟨kind, raw, rfl⟩
  · rw [Fault.isNative, h]
    rfl
  · rfl
  · rfl

theorem miscount?_eq_none {d : Demand} {n : Nat} :
    d.miscount? n = none ↔ ∀ count ∈ d.count?, count.admits n = true := by
  cases hc : d.count? with
  | none => simp [Demand.miscount?, hc]
  | some c => simp [Demand.miscount?, hc]

theorem mistake?_eq_none {d : Demand} {kids : List Node} :
    d.mistake? kids = none ↔ ∀ key ∈ d.key?, ∀ found, kids[key.index]? = some found →
      ∃ kind, found.kind? = some kind ∧ kind ∈ key.kinds := by
  cases hk : d.key? with
  | none => simp [Demand.mistake?, hk]
  | some key =>
    cases hfound : kids[key.index]? with
    | none => simp [Demand.mistake?, hk, hfound]
    | some found =>
      simp [Demand.mistake?, hk, hfound, Option.any_eq_true]

theorem misfit?_of_count {label : Label} {kids : List Node} {place : Place} {count : Count}
    (hcount : label.demand.count? = some count) (h : count.admits kids.length = false) :
    (Node.tree label kids place).misfit? = some (count.fault kids.length) := by
  rw [Node.misfit?, Demand.miscount?, hcount]
  simp [h]

theorem misfit?_of_key {label : Label} {kids : List Node} {place : Place} {key : Key} {found : Node}
    (hcount : label.demand.miscount? kids.length = none) (hkey : label.demand.key? = some key)
    (hfound : kids[key.index]? = some found) (h : found.kind?.any key.kinds.contains = false) :
    (Node.tree label kids place).misfit? = some (key.fault found) := by
  rw [Node.misfit?, hcount, Option.none_or, Demand.mistake?, hkey, Option.bind_some, hfound,
    Option.bind_some, h]
  rfl

theorem misfit?_statements {label : Label} (hl : label = .program ∨ label = .block)
    (kids : List Node) (place : Place) : (Node.tree label kids place).misfit? = none := by
  rcases hl with rfl | rfl <;> rfl

theorem misfit?_binary (level : Level) (lhs rhs : Node) (op : String) (p place : Place) :
    (Node.tree level.label [lhs, .token level.tokenKind op p, rhs] place).misfit? = none := by
  cases level <;> rfl

theorem misfit?_conditional (w : Keyword) (word : String) (c b : Node) {otherwise : List Node}
    (p place : Place) (single : otherwise.length ≤ 1) :
    (Node.tree w.label (.token w.tokenKind word p :: c :: b :: otherwise) place).misfit? =
      none := by
  match otherwise, single with
  | [], _ | [_], _ => cases w <;> rfl

/-- Where the number of children will do, the child that has to be a token is there. -/
theorem index_lt_of_admits {label : Label} {key : Key} {n : Nat} (hkey : key ∈ label.demand.key?)
    (hcount : ∀ count ∈ label.demand.count?, count.admits n = true) : key.index < n := by
  cases label with
  | program | block | negate | elseBlock | other => cases hkey
  | assignment | functionCall | identifier | constant =>
    obtain rfl := Option.some.inj hkey
    have hn := hcount _ rfl
    simp only [beq_iff_eq, decide_eq_true_eq] at hn
    simp only [Key.name, Key.literal]
    omega
  | additive | multiplicative | comparison =>
    obtain rfl := Option.some.inj hkey
    have hn := hcount _ rfl
    simp only [beq_iff_eq] at hn
    simp only [Key.word]
    omega
  | ifBlock | whileBlock =>
    obtain rfl := Option.some.inj hkey
    have hn := hcount _ rfl
    simp only [Bool.or_eq_true, beq_iff_eq] at hn
    simp only [Key.word]
    omega

/-- A node has a fault of its own exactly if it does not meet what its label requires. -/
theorem misfit?_eq_none_iff (n : Node) : n.misfit? = none ↔ n.Fits := by
  cases n with
  | token kind text p =>
    rw [Node.misfit?, Node.Fits]
    split
    next h => exact ⟨fun _ => h, fun _ => rfl⟩
    next h => exact ⟨nofun, fun hfits => absurd hfits h⟩
  | tree label kids p =>
    rw [Node.misfit?, Option.or_eq_none_iff, miscount?_eq_none, mistake?_eq_none, Node.Fits]
    refine and_congr_right fun hcount => forall₂_congr fun key hkey => ?_
    obtain ⟨found, hfound⟩ : ∃ found, kids[key.index]? = some found :=
      ⟨_, List.getElem?_eq_getElem (index_lt_of_admits hkey hcount)⟩
    simp [hfound]

theorem structural_count {label : Label} {count : Count} (h : count ∈ label.demand.count?)
    (n : Nat) : (count.fault n).Structural := by
  cases label with
  | program | block => cases h
  | other name =>
    obtain rfl := Option.some.inj h
    exact .inr (.inl ⟨_, rfl⟩)
  | _ =>
    obtain rfl := Option.some.inj h
    exact .inl rfl

theorem structural_key {label : Label} {key : Key} (h : key ∈ label.demand.key?) (found : Node) :
    (key.fault found).Structural := by
  cases label with
  | program | block | negate | elseBlock | other => cases h
  | constant =>
    obtain rfl := Option.some.inj h
    cases found with
    | token kind text p => exact .inr (.inr ⟨kind, text, rfl⟩)
    | tree => exact .inl rfl
  | _ =>
    obtain rfl := Option.some.inj h
    exact .inl rfl

/-- The faults that nodes have by themselves are structural. -/
theorem structural_of_misfit? {n : Node} {f : Fault} (h : n.misfit? = some f) : f.Structural := by
  cases n with
  | token kind text p =>
    rw [Node.misfit?] at h
    split at h
    · cases h
    · obtain rfl := Option.some.inj h
      exact .inr (.inr ⟨kind, text, rfl⟩)
  | tree label kids p =>
    rw [Node.misfit?, Option.or_eq_some_iff] at h
    rcases h with h | ⟨-, h⟩
    · obtain ⟨count, hcount, h⟩ := Option.bind_eq_some_iff.mp h
      split at h
      · cases h
      · obtain rfl := Option.some.inj h
        exact structural_count hcount kids.length
    · obtain ⟨key, hkey, h⟩ := Option.bind_eq_some_iff.mp h
      obtain ⟨found, -, h⟩ := Option.bind_eq_some_iff.mp h
      split at h
      · cases h
      · obtain rfl := Option.some.inj h
        exact structural_key hkey found

/-- The fault of a tree says nothing of its place or of the children that may be anything. -/
theorem misfit?_of_sameFrame {label : Label} {kids kids' : List Node}
    (h : SameFrame label kids kids') (p p' : Place) :
    (Node.tree label kids' p').misfit? = (Node.tree label kids p).misfit? := by
  rw [Node.misfit?, Node.misfit?, h.length]
  congr 1
  unfold Demand.mistake?
  cases hk : label.demand.key? with
  | none => rfl
  | some key => rw [Option.bind_some, Option.bind_some, h.key key hk]

end Scriptlet
