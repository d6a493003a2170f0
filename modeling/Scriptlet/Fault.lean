import Scriptlet.Decimal.Reading
import Scriptlet.Node
import Scriptlet.Value
/-!
# Faults

Everything that can stop a program, by cause. A fault of the language can be traced to a node and
then carries its location; the others come from beneath the language (a literal that no number can
be read from, a host function that fails in its own way) and carry none. `Fault.message` is the one
place that words them.
-/

namespace Scriptlet

/-- How a node departs from the shape that its label demands. -/
inductive Defect where
  | assignment
  | assignmentTarget
  | reference
  | referenceName
  | call
  | calleeName
  | negation
  | constant
  | elseClause
  | conditional (label : Label)
  | binary (count : Nat)
  | wrongToken (wanted : List TokenKind) (found : Node)
  deriving Repr

inductive Fault where
  /-- A node of the wrong shape. -/
  | malformed (d : Defect)
  /-- A name without a binding; `what` is the sort of thing that was looked for. -/
  | undefined (what name : String)
  /-- Operands that an operator does not take. -/
  | operands (operator : String) (lhs rhs : Kind)
  | notBoolean (k : Kind)
  | notNegatable (k : Kind)
  | notCallable (name : String) (k : Kind)
  | wrongArity (name : String) (expected found : Nat)
  /-- A host function that answered with something that is no value. -/
  | foreignAnswer (name typeName : String)
  | notConvertible (k : Kind)
  | textNotConvertible (s : String)
  /-- A host function that rejected its arguments. -/
  | rejected (name reason : String)
  | divisionByZero
  | literalOutOfRange (raw : String)
  /-- A host function that failed to compute. -/
  | incomputable (name reason : String)
  | unknownArithmetic (operator : String)
  | unknownComparator (operator : String)
  | unknownNode (l : Label)
  | unsupportedLiteral (k : TokenKind) (raw : String)
  /-- An integer literal that is no number. -/
  | notAnInteger (raw : String)
  /-- A float literal that is no number. -/
  | notAFloat (raw : String)
  /-- An integer literal with too many digits. -/
  | integerTooLong (count : Nat)
  /-- A whole number that no float is near to. -/
  | beyondFloats
  /-- A whole number with too many digits to be written. -/
  | tooLongToWrite
  /-- A host function that missed an entry of its own. -/
  | missingKey (key : String)
  /-- A host function that took an argument it was not given. -/
  | missingArgument
  /-- Something that the machine was asked for and did not give, with the kind of its reason. -/
  | denied (kind reason : String)
  /-- A stack of calls that the machine could not hold. -/
  | stackOverflow
  deriving Repr

/-- The class of a fault: the five of the language, and the rest. -/
inductive FaultClass where
  | shape | name | type | arithmetic | unsupported | foreign
  deriving DecidableEq, Repr

/-- How much of an unreadable integer literal, with its quotes, a report shows. -/
def excerptLimit : Nat := 200

/-- The verb for what an operator does. -/
def verb : String → String
  | "+" => "add"
  | "-" => "subtract"
  | "*" => "multiply"
  | "/" => "divide"
  | "<" | ">" => "compare"
  | _ => "apply"

def Defect.message : Defect → String
  | assignment => "Malformed assignment"
  | assignmentTarget => "Assignment target must be an identifier"
  | reference => "Malformed identifier reference"
  | referenceName => "Identifier reference must be an identifier"
  | call => "Malformed function call"
  | calleeName => "Function name must be an identifier"
  | negation => "Malformed negation"
  | constant => "Malformed constant"
  | elseClause => "Malformed else clause"
  | conditional l => "Malformed " ++ l.name
  | binary count => "Malformed binary expression with " ++ toString count ++ " children"
  | wrongToken wanted found =>
    "Expected " ++ String.intercalate " or " (wanted.map TokenKind.name) ++ " token, got " ++
      found.describe

namespace Fault

def message : Fault → String
  | malformed d => d.message
  | undefined what name => what ++ " '" ++ name ++ "' is not defined"
  | operands operator lhs rhs =>
    "Cannot " ++ verb operator ++ " values of types " ++ lhs.name ++ " and " ++ rhs.name ++
      " (operator '" ++ operator ++ "')"
  | notBoolean k => "Value is not boolean: got " ++ k.name
  | notNegatable k => "Cannot negate value of type " ++ k.name
  | notCallable name k => "'" ++ name ++ "' is not a function (it is " ++ k.name ++ ")"
  | wrongArity name expected found =>
    "Function " ++ name ++ " expects " ++ toString expected ++ " argument(s); got " ++
      toString found
  | foreignAnswer name typeName =>
    "Function " ++ name ++ " returned non-Lang value of type " ++ typeName
  | notConvertible k => "Cannot convert " ++ k.name ++ " to Float"
  | textNotConvertible s => "Cannot convert String '" ++ s ++ "' to Float"
  | rejected name reason => name ++ ": " ++ reason
  | divisionByZero => "Integer division by zero"
  | literalOutOfRange raw => "Integer literal " ++ raw ++ " is out of range"
  | incomputable name reason => name ++ ": " ++ reason
  | unknownArithmetic operator => "Unknown arithmetic operator " ++ operator
  | unknownComparator operator => "Unknown comparator " ++ operator
  | unknownNode l => "Unknown node: " ++ l.name
  | unsupportedLiteral k raw => "Unsupported literal kind " ++ k.name ++ ": " ++ raw
  | notAnInteger raw =>
    "invalid literal for int() with base 10: " ++
      String.ofList ((Text.quotedChars raw.toList).take excerptLimit)
  | notAFloat raw => "could not convert string to float: " ++ Text.quoted raw
  | integerTooLong count =>
    "Exceeds the limit (" ++ toString Decimal.digitLimit ++
      " digits) for integer string conversion: value has " ++ toString count ++
      " digits; use sys.set_int_max_str_digits() to increase the limit"
  | beyondFloats => "int too large to convert to float"
  | tooLongToWrite =>
    "Exceeds the limit (" ++ toString Decimal.digitLimit ++
      " digits) for integer string conversion; " ++
      "use sys.set_int_max_str_digits() to increase the limit"
  | missingKey key => Text.quoted key
  | missingArgument => "list index out of range"
  | denied _ reason => reason
  | stackOverflow => "maximum recursion depth exceeded"

/-- The class of each fault. -/
def faultClass : Fault → FaultClass
  | malformed _ => .shape
  | undefined .. => .name
  | operands .. | notBoolean _ | notNegatable _ | notCallable .. | wrongArity ..
  | foreignAnswer .. | notConvertible _ | textNotConvertible _ | rejected .. => .type
  | divisionByZero | literalOutOfRange _ | incomputable .. => .arithmetic
  | unknownArithmetic _ | unknownComparator _ | unknownNode _ | unsupportedLiteral .. =>
    .unsupported
  | notAnInteger _ | notAFloat _ | integerTooLong _ | beyondFloats | tooLongToWrite | missingKey _
  | missingArgument | denied .. | stackOverflow => .foreign

/-- Whether a fault belongs to the language, and so takes the location of a node. -/
def isNative (f : Fault) : Bool := f.faultClass != .foreign

end Fault

/-- A fault, and where it arose if that is known. -/
structure Failure where
  fault : Fault
  location : Option Location
  deriving Repr

namespace Failure

/-- The message, followed by the location if there is one. -/
def message (f : Failure) : String :=
  match f.location with
  | none => f.fault.message
  | some ⟨line, none⟩ => f.fault.message ++ " (line " ++ toString line ++ ")"
  | some ⟨line, some column⟩ =>
    f.fault.message ++ " (line " ++ toString line ++ ", col " ++ toString column ++ ")"

/-- The failure as it leaves a node: it takes the node's location if it has none and is a fault of
the language. -/
def leaving (place : Place) (f : Failure) : Failure :=
  if f.fault.isNative && f.location.isNone then { f with location := place.location } else f

end Failure

@[simp] theorem fault_leaving (place : Place) (f : Failure) :
    (f.leaving place).fault = f.fault := by
  unfold Failure.leaving
  split <;> rfl

/-- A fault of the language keeps the location it has, and takes that of the node if it has none. -/
theorem leaving_of_native {fault : Fault} (h : fault.isNative = true) (location : Option Location)
    (place : Place) :
    (Failure.mk fault location).leaving place = ⟨fault, location.or place.location⟩ := by
  cases location with
  | none => simp [Failure.leaving, h]
  | some l => simp [Failure.leaving]

end Scriptlet
