import Scriptlet.Decimal.Layout
import Scriptlet.Text.Quoted
/-!
# Values

What a program computes with, and the two texts of a value: the one that a program prints
(`display`) and the one that a report shows (`describe`), which names the kind.
-/

namespace Scriptlet

/-- A function that the host lends to programs. Two functions are the same exactly if they have
the same identity; `arity` is the number of arguments, or nothing if any number will do. -/
structure Callable where
  ident : Nat
  name : String
  arity : Option Nat
  deriving DecidableEq, Repr

inductive Value where
  | null
  | int (n : Int)
  | float (x : Float)
  | string (s : String)
  | bool (b : Bool)
  | callable (c : Callable)
  deriving Repr

instance : Inhabited Value := ⟨.null⟩

inductive Kind where
  | null | int | float | string | bool | callable
  deriving DecidableEq, Repr

def Kind.name : Kind → String
  | null => "Null"
  | int => "Int"
  | float => "Float"
  | string => "String"
  | bool => "Bool"
  | callable => "Callable"

/-- The text of a float that a program prints: a whole number has no point. -/
def plainFloat : Decimal.Layout where
  pointFrom := -4
  pointBelow := 16
  wholeEnd := ""
  zeroSign := false
  infinity := "Infinity"
  undefined := "NaN"

/-- The text of a float that a report shows: it always reads as a float. -/
def exactFloat : Decimal.Layout where
  pointFrom := -4
  pointBelow := 16
  wholeEnd := ".0"
  zeroSign := true
  infinity := "inf"
  undefined := "nan"

namespace Value

def kind : Value → Kind
  | null => .null
  | int _ => .int
  | float _ => .float
  | string _ => .string
  | bool _ => .bool
  | callable _ => .callable

/-- The text that a program prints. -/
def display : Value → String
  | null => "null"
  | int n => toString n
  | float x => plainFloat.text x
  | string s => s
  | bool b => if b then "true" else "false"
  | callable c => "<builtin " ++ c.name ++ ">"

/-- The text that a report shows. -/
def describe : Value → String
  | int n => "Int(" ++ toString n ++ ")"
  | float x => "Float(" ++ exactFloat.text x ++ ")"
  | string s => "String(" ++ Text.quoted s ++ ")"
  | bool b => "Bool(" ++ (bool b).display ++ ")"
  | v => v.display

/-- Equality by kind and content. Zeros of both signs are equal, and an undefined float is equal
to nothing; functions are compared by identity. -/
def equal : Value → Value → Bool
  | null, null => true
  | int a, int b => a == b
  | float a, float b => a == b
  | string a, string b => a == b
  | bool a, bool b => a == b
  | callable a, callable b => a.ident == b.ident
  | _, _ => false

theorem kind_eq_of_equal {v w : Value} (h : v.equal w = true) : v.kind = w.kind := by
  cases v <;> cases w <;> simp_all [equal, kind]

end Value

end Scriptlet
