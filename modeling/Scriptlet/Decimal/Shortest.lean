/-!
# Shortest decimals

The decimal number with the fewest digits that rounds to a given binary one, and of those the
nearest. A finite float is `m * 2 ^ q`; the reals that round to it form an interval with known
ends, and the answer is a point of the coarsest decimal grid that meets this interval. Main
statements: a point that is found lies in the interval (`holds_of_nearest?`), and a grid that is
passed over has neither neighbour of the value in it (`nearest?_eq_none_iff`).
-/

namespace Scriptlet.Decimal

/-- The number `coefficient * 10 ^ exponent`. -/
structure Numeral where
  coefficient : Nat
  exponent : Int
  deriving DecidableEq, Repr

/-- What a float is without its sign: `finite m q` is `m * 2 ^ q`. -/
inductive Magnitude where
  | finite (m : Nat) (q : Int)
  | infinite
  | undefined
  deriving DecidableEq, Repr

/-- The parts of a float's bits: 11 bits of exponent, 52 bits of fraction. -/
def Magnitude.ofFloat (x : Float) : Magnitude :=
  let bits := x.toBits.toNat
  let fraction : Nat := bits % Nat.pow 2 52
  let biased : Nat := bits / Nat.pow 2 52 % Nat.pow 2 11
  if biased = Nat.pow 2 11 - 1 then (if fraction = 0 then .infinite else .undefined)
  else if biased = 0 then .finite fraction (-1074)
  else .finite (Nat.pow 2 52 + fraction) ((biased : Int) - 1075)

/-- Whether the sign bit of a float is set. -/
def isNegative (x : Float) : Bool := Nat.pow 2 63 ≤ x.toBits.toNat

/-- A value and the interval of reals that round to it, in units of `2 ^ scale`. -/
structure Interval where
  low : Nat
  mid : Nat
  high : Nat
  closed : Bool
  scale : Int
  deriving DecidableEq, Repr

/-- The interval of `m * 2 ^ q`. Each end lies halfway to the next float, which is nearer below a
power of two; an even `m` wins the ties at both ends. -/
def Interval.around (m : Nat) (q : Int) : Interval where
  low := if m = Nat.pow 2 52 ∧ -1074 < q then 4 * m - 1 else 4 * m - 2
  mid := 4 * m
  high := 4 * m + 2
  closed := m % 2 == 0
  scale := q - 2

namespace Interval

/-- The numerator of `x * 2 ^ scale`, as a multiple of `10 ^ e` over `denominator`. -/
def numerator (i : Interval) (e : Int) (x : Nat) : Nat :=
  x * Nat.pow 2 i.scale.toNat * Nat.pow 10 (-e).toNat

/-- The common denominator of the numbers that `numerator` gives. -/
def denominator (i : Interval) (e : Int) : Nat :=
  Nat.pow 2 (-i.scale).toNat * Nat.pow 10 e.toNat

/-- Whether `c * 10 ^ e` lies in the interval. -/
def holds (i : Interval) (e : Int) (c : Nat) : Bool :=
  let point := c * i.denominator e
  let low := i.numerator e i.low
  let high := i.numerator e i.high
  if i.closed then low ≤ point && point ≤ high else low < point && point < high

/-- The multiple of `10 ^ e` next below the value. -/
def below (i : Interval) (e : Int) : Nat := i.numerator e i.mid / i.denominator e

/-- Whether the value is nearer to its lower neighbour on the grid `10 ^ e` than to the upper one;
a tie goes to the even neighbour. -/
def leansDown (i : Interval) (e : Int) : Bool :=
  let twice := 2 * i.numerator e i.mid
  let middle := (2 * i.below e + 1) * i.denominator e
  twice < middle || (twice == middle && i.below e % 2 == 0)

/-- The multiple of `10 ^ e` in the interval that is nearest to the value. -/
def nearest? (i : Interval) (e : Int) : Option Nat :=
  match i.holds e (i.below e), i.holds e (i.below e + 1) with
  | false, false => none
  | true, false => some (i.below e)
  | false, true => some (i.below e + 1)
  | true, true => if i.leansDown e then some (i.below e) else some (i.below e + 1)

theorem nearest?_eq_none_iff {i : Interval} {e : Int} :
    i.nearest? e = none ↔ i.holds e (i.below e) = false ∧ i.holds e (i.below e + 1) = false := by
  unfold nearest?
  split <;> simp_all
  split <;> simp

theorem holds_of_nearest? {i : Interval} {e : Int} {c : Nat} (h : i.nearest? e = some c) :
    i.holds e c = true := by
  unfold nearest? at h
  split at h <;> try split at h
  all_goals simp_all

/-- The search through the grids `10 ^ e` from coarse to fine, of which `n` are left and the last
is `10 ^ (-324)`. -/
def search (i : Interval) : Nat → Numeral
  | 0 => ⟨0, -324⟩
  | n + 1 =>
    match i.nearest? (n - 324) with
    | some c => ⟨c, n - 324⟩
    | none => i.search n

end Interval

/-- The shortest decimal of `m * 2 ^ q`. No finite float reaches `10 ^ 309`, and every interval is
wide enough for a multiple of `10 ^ (-324)`. -/
def shortest (m : Nat) (q : Int) : Numeral :=
  if m = 0 then ⟨0, 0⟩ else (Interval.around m q).search 633

end Scriptlet.Decimal
