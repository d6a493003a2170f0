import Scriptlet.Decimal.Shortest
/-!
# Layouts of decimal numbers

How the digits of a float are set out: with a point while the number's order of magnitude lies in
a range, and else as a coefficient with an exponent. What a particular text wants is one `Layout`.
-/

namespace Scriptlet.Decimal

/-- The choices in the text of a float. -/
structure Layout where
  /-- The least order of magnitude that is written with a point. -/
  pointFrom : Int
  /-- The least order of magnitude, from there on, that is written with an exponent. -/
  pointBelow : Int
  /-- What follows the digits of a whole number that is written without an exponent. -/
  wholeEnd : String
  /-- Whether a negative zero shows its sign. -/
  zeroSign : Bool
  infinity : String
  undefined : String

/-- The decimal digits of a number, most significant first. -/
def digits (n : Nat) : List Char := Nat.toDigits 10 n

/-- The power of ten of a number's first digit. -/
def Numeral.magnitude (n : Numeral) : Int := n.exponent + (digits n.coefficient).length - 1

namespace Layout

/-- A coefficient with one digit before the point, and an exponent of at least two digits. -/
def scientific (n : Numeral) : List Char :=
  let power := digits n.magnitude.natAbs
  let mantissa := match digits n.coefficient with
    | first :: second :: more => first :: '.' :: second :: more
    | single => single
  mantissa ++ ['e', if n.magnitude < 0 then '-' else '+'] ++
    List.replicate (2 - power.length) '0' ++ power

/-- All digits in their places, zeros filled in up to the point. -/
def positional (wholeEnd : List Char) (n : Numeral) : List Char :=
  let ds := digits n.coefficient
  if 0 ≤ n.exponent then ds ++ List.replicate n.exponent.toNat '0' ++ wholeEnd
  else
    let places := n.exponent.natAbs
    let padded := List.replicate (places + 1 - ds.length) '0' ++ ds
    padded.take (padded.length - places) ++ '.' :: padded.drop (padded.length - places)

/-- The text of a decimal number that is not negative. -/
def numeral (l : Layout) (n : Numeral) : List Char :=
  if l.pointFrom ≤ n.magnitude ∧ n.magnitude < l.pointBelow then
    positional l.wholeEnd.toList n
  else scientific n

/-- The text of a float. -/
def text (l : Layout) (x : Float) : String :=
  let signed (shown : Bool) (body : List Char) : String :=
    String.ofList (if shown && isNegative x then '-' :: body else body)
  match Magnitude.ofFloat x with
  | .undefined => l.undefined
  | .infinite => signed true l.infinity.toList
  | .finite m q => signed (m != 0 || l.zeroSign) (l.numeral (shortest m q))

end Layout

end Scriptlet.Decimal
