import Scriptlet.Source.Token
/-!
# Scanning

The tokens of a source, read from left to right. Blanks and comments between tokens are skipped. A
word is read to its end and then told to be a keyword or a name; only in an else branch, where no
name can stand, a keyword is read from the front of a longer word. Main statements: the characters
that skipping leaves are the end of those it was given (`skip_append`), and a token and what
follows it are exactly the characters it was read from (`Lexeme.split`).
-/

namespace Scriptlet.Source

/-- The characters that separate tokens. -/
def isGap (c : Char) : Bool := c = ' ' || c = '\t' || c = '\r' || c = '\n'

def isWordStart (c : Char) : Bool := c.isAlpha || c = '_'

def isWordChar (c : Char) : Bool := c.isAlphanum || c = '_'

/-- Pass over blanks and comments; `comment` says whether a comment has been begun. -/
def skip (comment : Bool) (p : Position) : List Char → Position × List Char
  | [] => (p, [])
  | c :: cs =>
    if comment then skip (c ≠ '\n') (p.next c) cs
    else if isGap c then skip false (p.next c) cs
    else if c = '#' then skip true (p.next c) cs
    else (p, c :: cs)

theorem skip_append (comment : Bool) (p : Position) (cs : List Char) :
    ∃ gap, cs = gap ++ (skip comment p cs).2 ∧ (skip comment p cs).1 = p.advance gap := by
  induction cs generalizing comment p with
  | nil => exact ⟨[], rfl, rfl⟩
  | cons c cs ih =>
    unfold skip
    split
    · obtain ⟨gap, h, hp⟩ := ih (c ≠ '\n') (p.next c)
      exact ⟨c :: gap, by rw [List.cons_append, ← h], hp⟩
    · split
      · obtain ⟨gap, h, hp⟩ := ih false (p.next c)
        exact ⟨c :: gap, by rw [List.cons_append, ← h], hp⟩
      · split
        · obtain ⟨gap, h, hp⟩ := ih true (p.next c)
          exact ⟨c :: gap, by rw [List.cons_append, ← h], hp⟩
        · exact ⟨[], rfl, rfl⟩

theorem skip_length_le (comment : Bool) (p : Position) (cs : List Char) :
    (skip comment p cs).2.length ≤ cs.length := by
  obtain ⟨gap, h, _⟩ := skip_append comment p cs
  have := congrArg List.length h
  simp only [List.length_append] at this
  omega

/-- The terminal of a whole word. -/
def wordTerminal (m : Mode) (word : List Char) : Terminal :=
  ((m.keywords.find? (·.1.toList = word)).map (·.2)).getD .identifier

/-- The keyword at the front of a text. -/
def leadingKeyword? (m : Mode) (cs : List Char) : Option (Terminal × Nat) :=
  (m.keywords.find? (·.1.toList.isPrefixOf cs)).map fun k => (k.2, k.1.length - 1)

/-- The terminal of the token that begins with `c`, and how many of the characters `cs` behind `c`
belong to it. -/
def recognize (m : Mode) (c : Char) (cs : List Char) : Option (Terminal × Nat) :=
  if isWordStart c then
    if m = .branch then leadingKeyword? m (c :: cs)
    else
      let tail := cs.takeWhile isWordChar
      some (wordTerminal m (c :: tail), tail.length)
  else if c.isDigit then
    let whole := (cs.takeWhile Char.isDigit).length
    match cs.drop whole with
    | '.' :: part =>
      let places := (part.takeWhile Char.isDigit).length
      some (if places = 0 then (.integer, whole) else (.float, whole + 1 + places))
    | _ => some (.integer, whole)
  else if c = '\x22' ∨ c = '\x27' then
    let inside := (cs.takeWhile (· ≠ c)).length
    if inside < cs.length then some (.string, inside + 1) else none
  else
    let doubled := cs.head? = some '='
    match c with
    | '=' => some (if doubled ∧ m ≠ .target then (.compareOp, 1) else (.assign, 0))
    | '!' => if doubled then some (.compareOp, 1) else none
    | '<' | '>' => some (.compareOp, if doubled then 1 else 0)
    | '+' => some (.addOp, 0)
    | '-' => some (if m = .operand then .negation else .addOp, 0)
    | '*' | '/' | '%' => some (.mulOp, 0)
    | ';' => some (.semicolon, 0)
    | ',' => some (.comma, 0)
    | '(' => some (.leftParen, 0)
    | ')' => some (.rightParen, 0)
    | '{' => some (.leftBrace, 0)
    | '}' => some (.rightBrace, 0)
    | _ => none

/-- What scanning a source gives: its tokens up to the end or up to the first place where none can
be read, and that place. -/
structure Scan where
  tokens : List Token
  blocked : Option Position
  deriving DecidableEq, Repr

/-- Scan the characters from a position on. -/
def scanFrom (m : Mode) (p : Position) (cs : List Char) : Scan :=
  match _h : skip false p cs with
  | (_, []) => ⟨[], none⟩
  | (first, c :: rest) =>
    match recognize m c rest with
    | none => ⟨[], some first⟩
    | some (terminal, count) =>
      let text := c :: rest.take count
      let last := first.advance text
      let more := scanFrom (m.after terminal) last (rest.drop count)
      ⟨⟨terminal, text, ⟨first, last⟩⟩ :: more.tokens, more.blocked⟩
termination_by cs.length
decreasing_by
  have := skip_length_le false p cs
  simp only [_h, List.length_cons] at this
  simp only [List.length_drop]
  omega

def scan (source : List Char) : Scan := scanFrom .line .start source

end Scriptlet.Source
