import Scriptlet.Text.Blank
import Scriptlet.Text.Digit
/-!
# Reading decimal numbers

The numbers that a text denotes. Decimal digits of every script count as digits, white space may
surround the number, and a single underscore may stand between two digits. A whole number is a sign
and digits, at most `digitLimit` of them; a float is a sign and `inf`, `infinity`, `nan` or digits
with a point and an exponent, and is rounded to the nearest binary value.
-/

namespace Scriptlet.Decimal

open Scriptlet.Text

/-- The most digits that a whole number may be written with. -/
def digitLimit : Nat := 4300

/-- The ASCII form of a character of a number: a digit for a digit of any script, a space for white
space outside ASCII, and a question mark for what no number holds. -/
def asciiForm (c : Char) : Char :=
  if c.toNat < 0x80 then c
  else if isBlank c then ' '
  else match digitValue? c with
    | some d => Char.ofNat ('0'.toNat + d)
    | none => '?'

/-- The characters of a number in ASCII, without the space around them. -/
def numberChars (s : String) : List Char := trimBy isSpace (s.toList.map asciiForm)

/-- Whether each underscore stands between two digits; `before` is the preceding character. -/
def underscoresFit (before : Char) : List Char → Bool
  | [] => true
  | '_' :: c :: cs => before.isDigit && c.isDigit && underscoresFit c cs
  | c :: cs => c != '_' && underscoresFit c cs

/-- Whether a sign is negative, and what follows it. -/
def splitSign : List Char → Bool × List Char
  | '-' :: cs => (true, cs)
  | '+' :: cs => (false, cs)
  | cs => (false, cs)

/-- The value of a row of ASCII digits. -/
def natOfDigits (ds : List Char) : Nat :=
  ds.foldl (fun n d => 10 * n + (d.toNat - '0'.toNat)) 0

/-- What comes of reading a whole number. -/
inductive IntReading where
  | value (n : Int)
  | malformed
  | tooLong (count : Nat)
  deriving DecidableEq, Repr

/-- Read a whole number. The length is judged before what follows the digits. -/
def readInt (s : String) : IntReading :=
  let (negative, body) := splitSign (numberChars s)
  let (row, rest) := body.span fun c => c.isDigit || c == '_'
  let ds := row.filter Char.isDigit
  if row.isEmpty || !underscoresFit ' ' row then .malformed
  else if digitLimit < ds.length then .tooLong ds.length
  else if !rest.isEmpty then .malformed
  else
    let n : Int := natOfDigits ds
    .value (if negative then -n else n)

/-- The float nearest to `m * 10 ^ e`. Beyond these bounds on `e` the answer no longer changes. -/
def roundScaled (m : Nat) (e : Int) : Float :=
  if m = 0 then 0.0
  else
    let bounded := max (-(m.log2 + 401 : Int)) (min e 401)
    Float.ofScientific m (bounded < 0) bounded.natAbs

/-- The exponent part of a number, which may be absent. -/
def readExponent? : List Char → Option Int
  | [] => some 0
  | mark :: cs =>
    let (negative, ds) := splitSign cs
    if (mark == 'e' || mark == 'E') && !ds.isEmpty && ds.all Char.isDigit then
      some (if negative then -(natOfDigits ds : Int) else natOfDigits ds)
    else none

/-- Read digits with an optional point and exponent. -/
def readScaled? (cs : List Char) : Option Float :=
  let (whole, rest) := cs.span Char.isDigit
  let (part, rest) := match rest with
    | '.' :: cs => cs.span Char.isDigit
    | cs => ([], cs)
  if whole.isEmpty && part.isEmpty then none
  else (readExponent? rest).map fun e =>
    roundScaled (natOfDigits (whole ++ part)) (e - part.length)

/-- Read a float. -/
def readFloat? (s : String) : Option Float :=
  let chars := numberChars s
  if !underscoresFit ' ' chars then none
  else
    let (negative, body) := splitSign (chars.filter (· != '_'))
    let size :=
      match String.ofList (body.map Char.toLower) with
      | "inf" | "infinity" => some (1.0 / 0.0)
      | "nan" => some (0.0 / 0.0)
      | _ => readScaled? body
    size.map fun x => if negative then -x else x

end Scriptlet.Decimal
