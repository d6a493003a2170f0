import Scriptlet.Text.Printable
/-!
# Quoted text

A text between quotes, on one line and in printable characters. The mark is a single quote, unless
the text holds single quotes and no double ones. The mark and the backslash are written after a
backslash; newline, carriage return and tab have letters; any other character that is not printable
is written by its code point in two, four or eight hexadecimal digits.
-/

namespace Scriptlet.Text

/-- The lower-case hexadecimal digits of a number, filled up with zeros on the left. -/
def hexDigits (width n : Nat) : List Char :=
  let digits := Nat.toDigits 16 n
  List.replicate (width - digits.length) '0' ++ digits

/-- A code point after a backslash, in the shortest of the three forms that holds it. -/
def codePoint (n : Nat) : List Char :=
  if n < 0x100 then ['\\', 'x'] ++ hexDigits 2 n
  else if n < 0x10000 then ['\\', 'u'] ++ hexDigits 4 n
  else ['\\', 'U'] ++ hexDigits 8 n

/-- One character between quotes of the given mark. -/
def escape (mark c : Char) : List Char :=
  if c = mark ∨ c = '\\' then ['\\', c]
  else if c = '\n' then ['\\', 'n']
  else if c = '\r' then ['\\', 'r']
  else if c = '\t' then ['\\', 't']
  else if isPrintable c then [c]
  else codePoint c.toNat

/-- The quote that a text is put between. -/
def quoteMark (cs : List Char) : Char :=
  if cs.contains '\x27' && !cs.contains '\x22' then '\x22' else '\x27'

/-- The characters of a text between quotes. -/
def quotedChars (cs : List Char) : List Char :=
  let mark := quoteMark cs
  mark :: (cs.flatMap (escape mark) ++ [mark])

/-- A text between quotes. -/
def quoted (s : String) : String := String.ofList (quotedChars s.toList)

end Scriptlet.Text
