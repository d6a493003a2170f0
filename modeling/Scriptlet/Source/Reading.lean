import Scriptlet.Source.Progress
import Scriptlet.Source.Scan
import Scriptlet.Text.Lines
/-!
# Reading sources

The program that a source says, or the first place where it cannot go on. That place is where the
first refused token begins, or where no token can be read; if the source merely ends too early, it
is where the last token begins.
-/

namespace Scriptlet.Source

/-- A place where a source cannot go on, with its surroundings. -/
structure SyntaxError where
  position : Position
  excerpt : String
  deriving DecidableEq, Repr

/-- How much of a source is shown on either side of an error. -/
def excerptReach : Nat := 40

/-- The line around an offset, as far as it is near, and a mark under the offset. -/
def surroundings (source : List Char) (offset : Nat) : String :=
  let before := Text.lastLine ((source.take offset).drop (offset - excerptReach))
  let after := Text.firstLine ((source.drop offset).take excerptReach)
  String.ofList (before ++ after ++ '\n' :: List.replicate (Text.columns before) ' ' ++ ['^'])

def SyntaxError.at (source : List Char) (p : Position) : SyntaxError :=
  ⟨p, surroundings source p.offset⟩

def SyntaxError.message (e : SyntaxError) : String :=
  "Syntax error near:\n" ++ e.excerpt ++ " (line " ++ toString e.position.line ++ ", col " ++
    toString e.position.column ++ ")"

/-- The position of a source's end, for a report: where its last token begins. -/
def endPosition (ts : List Token) : Position :=
  match ts.getLast? with
  | some t => t.span.first
  | none => .start

/-- The program of a source, or the position where the source cannot go on. -/
def readChars (source : List Char) : Except Position Program :=
  let s := scan source
  match Progress.start.readAll s.tokens with
  | .error (t :: _) => .error t.span.first
  | .error [] => .error (endPosition s.tokens)
  | .ok p =>
    match s.blocked, p.finish with
    | some position, _ => .error position
    | none, some program => .ok program
    | none, none => .error (endPosition s.tokens)

/-- The program of a source. -/
def read (source : String) : Except SyntaxError Program :=
  (readChars source.toList).mapError (SyntaxError.at source.toList)

end Scriptlet.Source
