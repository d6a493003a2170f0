import Scriptlet.Arithmetic
import Scriptlet.Decimal.Reading
/-!
# Literals

The value that a literal token denotes. Main statement: an integer literal denotes a word in the
signed range or nothing (`inRange_of_literalValue`).
-/

namespace Scriptlet

/-- The text between two equal quotes; a text that is not between such is its own content. -/
def unquote (raw : String) : String :=
  match raw.toList with
  | mark :: rest =>
    if (mark = '\x22' ∨ mark = '\x27') ∧ rest.getLast? = some mark then
      String.ofList rest.dropLast
    else raw
  | [] => raw

/-- The word that an integer literal denotes. -/
def integerValue (raw : String) : Except Fault Value :=
  match Decimal.readInt raw with
  | .value n => if InRange n then .ok (.int n) else .error (.literalOutOfRange raw)
  | .malformed => .error (.notAnInteger raw)
  | .tooLong count => .error (.integerTooLong count)

/-- The value of a literal; any other kind of token has none. -/
def literalValue (kind : TokenKind) (raw : String) : Except Fault Value :=
  match kind with
  | .integer => integerValue raw
  | .float =>
    match Decimal.readFloat? raw with
    | some x => .ok (.float x)
    | none => .error (.notAFloat raw)
  | .string => .ok (.string (unquote raw))
  | .trueWord | .falseWord => .ok (.bool (raw == "true"))
  | .nullWord => .ok .null
  | k => .error (.unsupportedLiteral k raw)

theorem inRange_of_literalValue {kind : TokenKind} {raw : String} {n : Int}
    (h : literalValue kind raw = .ok (.int n)) : InRange n := by
  unfold literalValue integerValue at h
  split at h <;> (try split at h) <;> (try split at h) <;> simp_all

end Scriptlet
