/-!
# White space

The characters that trimming removes. `isBlank` is the white space of Unicode 14 together with the
four separators 0x1c to 0x1f; `isSpace` is its part that a number may stand between. Main statement:
every character of core's class is blank (`isBlank_of_isWhitespace`).
-/

namespace Scriptlet.Text

/-- The space and the five controls from the tab to the carriage return. -/
def isSpace (c : Char) : Bool :=
  c.toNat == 0x20 || (0x09 ≤ c.toNat && c.toNat ≤ 0x0d)

/-- A white-space character of Unicode, or one of the separators 0x1c to 0x1f. -/
def isBlank (c : Char) : Bool :=
  isSpace c || (0x1c ≤ c.toNat && c.toNat ≤ 0x1f) ||
    [0x85, 0xa0, 0x1680, 0x2028, 0x2029, 0x202f, 0x205f, 0x3000].contains c.toNat ||
    (0x2000 ≤ c.toNat && c.toNat ≤ 0x200a)

theorem isBlank_of_isSpace {c : Char} (h : isSpace c = true) : isBlank c = true := by
  simp [isBlank, h]

theorem isBlank_of_isWhitespace {c : Char} (h : c.isWhitespace = true) : isBlank c = true := by
  simp only [Char.isWhitespace, Bool.or_eq_true, decide_eq_true_eq] at h
  obtain ((rfl | rfl) | rfl) | rfl := h <;> decide

/-- The text without the characters of a class at either end. -/
def trimBy (drop : Char → Bool) (cs : List Char) : List Char :=
  ((cs.dropWhile drop).reverse.dropWhile drop).reverse

/-- The text without blanks at either end. -/
def trim (cs : List Char) : List Char := trimBy isBlank cs

end Scriptlet.Text
