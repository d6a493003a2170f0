import Scriptlet.Fault
/-!
# Arithmetic

The operators on values. Whole numbers are 64-bit words: results are folded into the signed range,
and division drops the fraction. A whole number beside a float is first made a float, and `+` with a
text on either side joins the two printed texts. Main statements: `wrap` always lands in the signed
range (`wrap_range`), changes nothing that is in it (`wrap_of_range`) and keeps the number modulo
`2 ^ 64` (`wrap_emod`); a word has a float and a text (`nearestFloat_of_range`,
`write_of_range`).
-/

namespace Scriptlet

def intMin : Int := -0x8000000000000000

def intMax : Int := 0x7fffffffffffffff

/-- Whether a number is a signed 64-bit word. -/
def InRange (n : Int) : Prop := intMin ≤ n ∧ n ≤ intMax

instance (n : Int) : Decidable (InRange n) := inferInstanceAs (Decidable (_ ∧ _))

/-- The number of words. -/
def words : Int := 0x10000000000000000

/-- The signed 64-bit word that agrees with a number modulo `2 ^ 64`. -/
def wrap (n : Int) : Int := (n - intMin) % words + intMin

theorem wrap_range (n : Int) : InRange (wrap n) := by
  unfold wrap InRange intMin intMax words
  omega

theorem wrap_of_range {n : Int} (h : InRange n) : wrap n = n := by
  unfold InRange intMin intMax at h
  unfold wrap intMin words
  omega

theorem wrap_emod (n : Int) : wrap n % words = n % words := by
  unfold wrap intMin words
  omega

/-- The operators of sums and products that have a meaning. -/
inductive ArithOp where
  | add | subtract | multiply | divide
  deriving DecidableEq, Repr

namespace ArithOp

def ofText? : String → Option ArithOp
  | "+" => some add
  | "-" => some subtract
  | "*" => some multiply
  | "/" => some divide
  | _ => none

/-- The operator on words. -/
def onInts : ArithOp → Int → Int → Except Fault Int
  | add, a, b => .ok (wrap (a + b))
  | subtract, a, b => .ok (wrap (a - b))
  | multiply, a, b => .ok (wrap (a * b))
  | divide, a, b =>
    if b = 0 then .error .divisionByZero
    else
      let quotient : Int := (a.natAbs / b.natAbs : Nat)
      .ok (wrap (if a < 0 ↔ b < 0 then quotient else -quotient))

/-- The operator on floats; a division by zero gives an infinity, or no number. -/
def onFloats : ArithOp → Float → Float → Float
  | add, a, b => a + b
  | subtract, a, b => a - b
  | multiply, a, b => a * b
  | divide, a, b => a / b

end ArithOp

/-- The operators of comparisons that have a meaning. -/
inductive Comparator where
  | less | greater
  deriving DecidableEq, Repr

namespace Comparator

def ofText? : String → Option Comparator
  | "<" => some less
  | ">" => some greater
  | _ => none

def onInts : Comparator → Int → Int → Bool
  | less, a, b => a < b
  | greater, a, b => b < a

/-- The comparison of floats; it fails whenever one of them is no number. -/
def onFloats : Comparator → Float → Float → Bool
  | less, a, b => a < b
  | greater, a, b => b < a

end Comparator

/-- Half a step above the largest float: from here on a whole number has no nearest float. -/
@[irreducible]
def floatLimit : Nat := Nat.pow 2 1024 - Nat.pow 2 970

def nearestFloat (n : Int) : Except Fault Float :=
  if n.natAbs < floatLimit then .ok (Float.ofInt n) else .error .beyondFloats

theorem eq_of_nearestFloat {n : Int} {f : Fault} (h : nearestFloat n = .error f) :
    f = .beyondFloats := by
  unfold nearestFloat at h
  split at h <;> cases h
  rfl

theorem natAbs_of_range {n : Int} (h : InRange n) : n.natAbs ≤ 0x8000000000000000 := by
  unfold InRange intMin intMax at h
  omega

theorem nearestFloat_of_range {n : Int} (h : InRange n) :
    nearestFloat n = .ok (Float.ofInt n) := by
  have hlimit : 0x8000000000000000 < floatLimit := by decide +kernel
  exact if_pos (Nat.lt_of_le_of_lt (natAbs_of_range h) hlimit)

/-- The number that a value brings to a calculation with floats. -/
def Value.asFloat? : Value → Option (Except Fault Float)
  | .int n => some (nearestFloat n)
  | .float x => some (.ok x)
  | _ => none

theorem eq_of_asFloat? {v : Value} {f : Fault} (h : v.asFloat? = some (.error f)) :
    f = .beyondFloats := by
  unfold Value.asFloat? at h
  split at h
  next => exact eq_of_nearestFloat (Option.some.inj h)
  next => cases h
  next => cases h

/-- The text that a program prints, unless it is that of a number with too many digits. -/
def Value.write (v : Value) : Except Fault String :=
  match v with
  | .int n =>
    if n.natAbs < Nat.pow 10 Decimal.digitLimit then .ok v.display else .error .tooLongToWrite
  | _ => .ok v.display

theorem eq_of_write {v : Value} {f : Fault} (h : v.write = .error f) : f = .tooLongToWrite := by
  unfold Value.write at h
  split at h
  next =>
    split at h <;> cases h
    rfl
  next => cases h

theorem write_of_range {v : Value} (h : ∀ n, v = .int n → InRange n) : v.write = .ok v.display := by
  cases v with
  | int n =>
    have hlimit : 0x8000000000000000 < Nat.pow 10 Decimal.digitLimit := by decide +kernel
    have hlt := Nat.lt_of_le_of_lt (natAbs_of_range (h n rfl)) hlimit
    rw [Value.write, if_pos hlt]
  | _ => rfl

/-- Apply the operator of a sum or product. -/
def applyArithmetic (operator : String) (lhs rhs : Value) : Except Fault Value :=
  match ArithOp.ofText? operator with
  | none => .error (.unknownArithmetic operator)
  | some op =>
    match lhs, rhs with
    | .int a, .int b => (op.onInts a b).map .int
    | _, _ =>
      match lhs.asFloat?, rhs.asFloat? with
      | some a, some b => do pure (.float (op.onFloats (← a) (← b)))
      | _, _ =>
        if op = .add ∧ (lhs.kind = .string ∨ rhs.kind = .string) then do
          pure (.string ((← lhs.write) ++ (← rhs.write)))
        else .error (.operands operator lhs.kind rhs.kind)

/-- Apply the operator of a comparison. -/
def applyComparison (operator : String) (lhs rhs : Value) : Except Fault Bool :=
  match Comparator.ofText? operator with
  | none => .error (.unknownComparator operator)
  | some op =>
    match lhs, rhs with
    | .int a, .int b => .ok (op.onInts a b)
    | _, _ =>
      match lhs.asFloat?, rhs.asFloat? with
      | some a, some b => do pure (op.onFloats (← a) (← b))
      | _, _ => .error (.operands operator lhs.kind rhs.kind)

/-- The value of opposite sign. -/
def negate : Value → Except Fault Value
  | .int n => .ok (.int (wrap (-n)))
  | .float x => .ok (.float (-x))
  | v => .error (.notNegatable v.kind)

/-- The condition that a value states: only a truth value states one. -/
def truth : Value → Except Fault Bool
  | .bool b => .ok b
  | v => .error (.notBoolean v.kind)

end Scriptlet
