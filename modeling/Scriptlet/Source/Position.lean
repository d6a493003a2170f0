/-!
# Positions in a source

A position counts characters from zero, and lines and columns from one; only a newline starts a new
line. Main statement: passing two pieces of text one after the other is passing their concatenation
(`advance_append`).
-/

namespace Scriptlet.Source

/-- A place between two characters of a source. -/
structure Position where
  offset : Nat
  line : Nat
  column : Nat
  deriving DecidableEq, Repr

namespace Position

/-- Where a source begins. -/
def start : Position := ⟨0, 1, 1⟩

/-- The position behind one more character. -/
def next (p : Position) (c : Char) : Position :=
  if c = '\n' then ⟨p.offset + 1, p.line + 1, 1⟩ else ⟨p.offset + 1, p.line, p.column + 1⟩

/-- The position behind a piece of text. -/
def advance (p : Position) (cs : List Char) : Position := cs.foldl next p

@[simp] theorem advance_nil (p : Position) : p.advance [] = p := rfl

@[simp] theorem advance_cons (p : Position) (c : Char) (cs : List Char) :
    p.advance (c :: cs) = (p.next c).advance cs := rfl

theorem advance_append (p : Position) (cs ds : List Char) :
    p.advance (cs ++ ds) = (p.advance cs).advance ds := by
  simp [advance]

theorem next_offset (p : Position) (c : Char) : (p.next c).offset = p.offset + 1 := by
  unfold next
  split <;> rfl

theorem advance_offset (p : Position) (cs : List Char) :
    (p.advance cs).offset = p.offset + cs.length := by
  induction cs generalizing p with
  | nil => rfl
  | cons c cs ih => rw [advance_cons, ih, next_offset, List.length_cons]; omega

end Position

/-- A piece of a source, from its first character to behind its last one. -/
structure Span where
  first : Position
  last : Position
  deriving DecidableEq, Repr

/-- The piece from the start of one span to the end of another. -/
def Span.to (a b : Span) : Span := ⟨a.first, b.last⟩

end Scriptlet.Source
