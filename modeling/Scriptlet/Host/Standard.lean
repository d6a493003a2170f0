import Scriptlet.Arithmetic
import Scriptlet.Environment
import Scriptlet.Host
/-!
# The standard functions

`Pow` and `Print`, which every host lends and every new environment binds.
-/

namespace Scriptlet

/-- The float that a function takes an argument for. Unlike an operator, a function also takes
truth values, `null`, and texts that read as a number. -/
def Value.convert : Value → Except Fault Float
  | .int n => nearestFloat n
  | .float x => .ok x
  | .bool b => .ok (if b then 1.0 else 0.0)
  | .null => .ok 0.0
  | .string s =>
    match Decimal.readFloat? (String.ofList (Text.trim s.toList)) with
    | some x => .ok x
    | none => .error (.textNotConvertible s)
  | .callable c => .error (.notConvertible (Value.callable c).kind)

/-- An argument cannot be converted because it is too large, or for its type. -/
theorem fault_of_convert {v : Value} {f : Fault} (h : v.convert = .error f) :
    f = .beyondFloats ∨ f.faultClass = .type := by
  cases v with
  | int n => exact .inl (eq_of_nearestFloat h)
  | string s =>
    rw [Value.convert] at h
    split at h <;> cases h
    exact .inr rfl
  | callable c =>
    cases h
    exact .inr rfl
  | null | float | bool => cases h

/-- A number raised to a power, by the rules for floats: no case is an error. -/
def power (base exponent : Float) : Float := Float.pow base exponent

namespace Host

/-- The answer to an argument that cannot be converted. -/
def inconvertible : Fault → Answer
  | .beyondFloats => .incomputable Fault.beyondFloats.message
  | f => .fails f

theorem inconvertible_of_class {f : Fault} (h : f.faultClass = .type) :
    inconvertible f = .fails f := by
  unfold inconvertible
  split
  next => cases h
  next => rfl

/-- The power of two arguments, the first of which is converted first. -/
def pow : Native
  | [base, exponent] =>
    match base.convert, exponent.convert with
    | .ok b, .ok e => ⟨"", .value (.float (power b e))⟩
    | .error f, _ => ⟨"", inconvertible f⟩
    | _, .error f => ⟨"", inconvertible f⟩
  | _ => ⟨"", .fails .missingArgument⟩

/-- Write words and then values on a line, with a space between two, and answer. -/
def printLine (words : List String) (args : List Value) (answer : Answer) : Reply :=
  match args.mapM Value.write with
  | .ok texts => ⟨String.intercalate " " (words ++ texts) ++ "\n", answer⟩
  | .error f => ⟨"", .rejected f.message⟩

/-- A line that cannot be written is a rejection. -/
theorem printLine_fails (words : List String) (args : List Value) (answer : Answer) (f : Fault)
    (h : answer ≠ .fails f) : (printLine words args answer).answer ≠ .fails f := by
  unfold printLine
  split
  · exact h
  · exact fun h => by cases h

/-- Print the arguments on a line. -/
def print : Native := fun args => printLine [] args (.value .null)

/-- The host that lends the standard functions only. -/
def standard : Host := ⟨[pow, print]⟩

end Host

def Registry.standard : Registry := ⟨[⟨0, "Pow", some 2⟩, ⟨1, "Print", none⟩]⟩

end Scriptlet
