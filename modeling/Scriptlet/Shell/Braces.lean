/-!
# Open braces

How many blocks a text leaves open, by its braces alone. Braces in a complete string and in a
comment do not count; a quote that is not closed is passed over on its own.
-/

namespace Scriptlet.Shell

/-- The opening braces less the closing ones. -/
def braceBalance : List Char → Int
  | [] => 0
  | c :: cs =>
    if c = '\x22' ∨ c = '\x27' then
      match _h : cs.dropWhile (· ≠ c) with
      | _ :: rest => braceBalance rest
      | [] => braceBalance cs
    else if c = '#' then braceBalance (cs.dropWhile (· ≠ '\n'))
    else (if c = '{' then 1 else if c = '}' then -1 else 0) + braceBalance cs
termination_by cs => cs.length
decreasing_by
  · have := (List.dropWhile_suffix (l := cs) (· ≠ c)).length_le
    simp only [_h, List.length_cons] at this ⊢
    omega
  · simp
  · have := (List.dropWhile_suffix (l := cs) (· ≠ '\n')).length_le
    simp only [List.length_cons]
    omega
  · simp

/-- The number of blocks that a text leaves open; it is negative if more are closed. -/
def braceDepth (text : String) : Int := braceBalance text.toList

end Scriptlet.Shell
