/-!
# Lines

Line ends and columns of a text. Reading a file turns each way to end a line into a newline
(`unifyLineEnds`); `columns` says how far to the right a piece of one line reaches when tabs
advance to the next multiple of eight.
-/

namespace Scriptlet.Text

/-- The text with a carriage return, alone or before a newline, read as a newline. -/
def unifyLineEnds : List Char → List Char
  | [] => []
  | '\r' :: '\n' :: cs => '\n' :: unifyLineEnds cs
  | c :: cs => (if c = '\r' then '\n' else c) :: unifyLineEnds cs

/-- The number of characters after each tab is replaced by spaces up to the next multiple of
eight; a carriage return is a character, and the next tab counts from it. -/
def columns (cs : List Char) : Nat :=
  let step (reached : Nat × Nat) (c : Char) : Nat × Nat :=
    let (width, sinceReturn) := reached
    if c = '\t' then
      let fill := 8 - sinceReturn % 8
      (width + fill, sinceReturn + fill)
    else if c = '\r' then (width + 1, 0)
    else (width + 1, sinceReturn + 1)
  (cs.foldl step (0, 0)).1

/-- The part before the first newline. -/
def firstLine (cs : List Char) : List Char := cs.takeWhile (· ≠ '\n')

/-- The part after the last newline. -/
def lastLine (cs : List Char) : List Char := (cs.reverse.takeWhile (· ≠ '\n')).reverse

theorem unifyLineEnds_of_no_return {cs : List Char} (h : '\r' ∉ cs) : unifyLineEnds cs = cs := by
  fun_induction unifyLineEnds cs <;> simp_all
  grind

end Scriptlet.Text
