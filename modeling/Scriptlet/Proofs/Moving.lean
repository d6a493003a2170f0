import Scriptlet.Proofs.Layout
/-!
# Moving sources

A source below another one: every position moves down by the lines above it and keeps its column.
Tokens move with their positions, and so do the nodes that derive from them (`Derives.moved`). Main
statement: what stands on a line of its own, below a text, is placed as it would be alone and then
moved (`placed_below`).
-/

namespace Scriptlet

open Source

/-- How far a source moves when others are put above it. -/
structure Shift where
  chars : Nat
  lines : Nat
  deriving DecidableEq, Repr

/-- How far a source moves when another one and a newline are put above it. -/
def Shift.below (source : String) : Shift :=
  ⟨source.toList.length + 1, source.toList.count '\n' + 1⟩

def Source.Position.moved (d : Shift) (p : Position) : Position :=
  ⟨p.offset + d.chars, p.line + d.lines, p.column⟩

def Source.Span.moved (d : Shift) (s : Span) : Span := ⟨s.first.moved d, s.last.moved d⟩

def Source.Token.moved (d : Shift) (t : Token) : Token := ⟨t.terminal, t.text, t.span.moved d⟩

def Location.moved (lines : Nat) (l : Location) : Location := ⟨l.line + lines, l.column⟩

def Place.moved (d : Shift) : Place → Place
  | .unknown => .unknown
  | .given line column => .given (line.map (· + (d.lines : Int))) column
  | .span s => .span (s.moved d)

def Node.moved (d : Shift) : Node → Node
  | .token k t p => .token k t (p.moved d)
  | .tree l ks p => .tree l (movedAll ks) (p.moved d)
where
  movedAll : List Node → List Node
    | [] => []
    | n :: ns => n.moved d :: movedAll ns

variable {d : Shift}

theorem movedAll_eq (ns : List Node) : Node.moved.movedAll d ns = ns.map (Node.moved d) := by
  induction ns with
  | nil => rw [Node.moved.movedAll, List.map_nil]
  | cons n ns ih => rw [Node.moved.movedAll, List.map_cons, ih]

@[simp] theorem moved_token (k : TokenKind) (t : String) (p : Place) :
    (Node.token k t p).moved d = .token k t (p.moved d) := by
  rw [Node.moved]

@[simp] theorem moved_tree (l : Label) (ks : List Node) (p : Place) :
    (Node.tree l ks p).moved d = .tree l (ks.map (Node.moved d)) (p.moved d) := by
  rw [Node.moved, movedAll_eq]

/-- A location moves with the place that gives it. -/
theorem location_moved (p : Place) :
    (p.moved d).location = p.location.map (Location.moved d.lines) := by
  cases p with
  | unknown => rfl
  | given line column => cases line <;> rfl
  | span s =>
    have hline : ((s.first.line + d.lines : Nat) : Int) = s.first.line + d.lines := by omega
    show some (Location.mk ((s.first.line + d.lines : Nat) : Int) _) = _
    rw [hline]
    rfl

/-! ## Positions -/

theorem next_moved (p : Position) (c : Char) : (p.moved d).next c = (p.next c).moved d := by
  unfold Position.next
  split
  · show Position.mk _ _ _ = Position.mk _ _ _
    congr 1 <;> simp only [Position.moved] <;> omega
  · show Position.mk _ _ _ = Position.mk _ _ _
    congr 1
    simp only [Position.moved]
    omega

theorem advance_moved (p : Position) (cs : List Char) :
    (p.moved d).advance cs = (p.advance cs).moved d := by
  induction cs generalizing p with
  | nil => rfl
  | cons c cs ih => rw [Position.advance_cons, Position.advance_cons, next_moved, ih]

/-- Behind a source and a newline, a line begins. -/
theorem advance_below (source : String) :
    Position.start.advance (source.toList ++ ['\n']) = Position.start.moved (.below source) := by
  rw [advance_start, behind_snoc]
  show Position.mk _ _ _ = Position.mk _ _ _
  simp only [Position.behind, Position.start, Shift.below]
  congr 1 <;> omega

theorem placed_moved (p : Position) (ps : List Piece) :
    placed (p.moved d) ps = (placed p ps).map (Token.moved d) := by
  induction ps generalizing p with
  | nil => rfl
  | cons x ps ih =>
    rw [placed, placed, List.map_cons, advance_moved, advance_moved, ih]
    rfl

/-- What stands below a source is placed as it would be alone, and moved. -/
theorem placed_below (source : String) (ps : List Piece) :
    placed (Position.start.advance (source.toList ++ ['\n'])) ps =
      (placed .start ps).map (Token.moved (.below source)) := by
  rw [advance_below, placed_moved]

/-! ## Derivations -/

theorem spanOf_moved (ts : List Token) :
    spanOf (ts.map (Token.moved d)) = (spanOf ts).map (Span.moved d) := by
  induction ts with
  | nil => rfl
  | cons t ts ih =>
    rw [List.map_cons, spanOf, spanOf, ih]
    cases spanOf ts with
    | none => rfl
    | some s => rfl

theorem placeOf_moved (ts : List Token) :
    placeOf (ts.map (Token.moved d)) = (placeOf ts).moved d := by
  rw [placeOf, placeOf, spanOf_moved]
  cases spanOf ts with
  | none => rfl
  | some s => rfl

theorem nodes_moved (t : Token) : (t.moved d).nodes = t.nodes.map (Node.moved d) := by
  rw [Token.nodes, Token.nodes, Token.moved]
  cases t.terminal.kind? with
  | none => rfl
  | some k => rw [List.map_singleton, moved_token]; rfl

theorem apply_moved (s : Shaping) (ts : List Token) (ns : List Node) :
    s.apply (ts.map (Token.moved d)) (ns.map (Node.moved d)) =
      (s.apply ts ns).map (Node.moved d) := by
  cases s with
  | tree l => rw [Shaping.apply, Shaping.apply, placeOf_moved, List.map_singleton, moved_tree]
  | splice => rfl
  | spliceSingle l =>
    rw [Shaping.apply, Shaping.apply, placeOf_moved, List.length_map]
    split
    · rfl
    · rw [List.map_singleton, moved_tree]

/-- Moved tokens derive what they derived, moved. -/
theorem Source.Derives.moved (d : Shift) {a : Phrase} {ts : List Token} {ns : List Node}
    (h : Derives a ts ns) : Derives a (ts.map (Token.moved d)) (ns.map (Node.moved d)) := by
  induction h with
  | @terminal t h =>
    rw [← nodes_moved]
    exact Derives.terminal (t := t.moved d) h
  | rule mem _ ih =>
    rw [← apply_moved]
    exact .rule mem ih
  | empty => exact .empty
  | seq _ _ iha ihb =>
    rw [List.map_append, List.map_append]
    exact .seq iha ihb
  | left _ ih => exact .left ih
  | right _ ih => exact .right ih
  | none => exact .none
  | more _ _ ih ihrest =>
    rw [List.map_append, List.map_append]
    exact .more ih ihrest

end Scriptlet
