import Scriptlet.Source.Position
import Scriptlet.Text.Quoted
/-!
# Nodes

The trees that the evaluator runs on. A tree may come from a source or be put together by hand, so
labels, kinds, the number of children and the places are all free.
-/

namespace Scriptlet

/-- A line, and a column where one is known. -/
structure Location where
  line : Int
  column : Option Int
  deriving DecidableEq, Repr

/-- What is known of where a node stands. -/
inductive Place where
  | unknown
  | given (line column : Option Int)
  | span (s : Source.Span)
  deriving DecidableEq, Repr

/-- The location that a place gives to a report; a column without a line is none. -/
def Place.location : Place → Option Location
  | .unknown => none
  | .given line column => line.map fun l => ⟨l, column⟩
  | .span s => some ⟨s.first.line, some (s.first.column : Int)⟩

/-- The line and column that a place records, either of which may be missing. -/
def Place.marks : Place → Option (Option Int × Option Int)
  | .unknown => none
  | .given line column => some (line, column)
  | .span s => some (some s.first.line, some s.first.column)

/-- The kind of a token. -/
inductive TokenKind where
  | identifier | integer | float | string | trueWord | falseWord | nullWord
  | ifWord | unlessWord | whileWord | untilWord | compareOp | addOp | mulOp
  | other (name : String)
  deriving DecidableEq, Repr

namespace TokenKind

/-- The kinds that have a meaning, with their names. -/
def named : List (TokenKind × String) :=
  [(identifier, "IDENTIFIER"), (integer, "INTEGER"), (float, "FLOAT"), (string, "STRING"),
   (trueWord, "TRUE"), (falseWord, "FALSE"), (nullWord, "NULL"), (ifWord, "IF"),
   (unlessWord, "UNLESS"), (whileWord, "WHILE"), (untilWord, "UNTIL"),
   (compareOp, "COMPARE_OP"), (addOp, "ADD_OP"), (mulOp, "MUL_OP")]

def name : TokenKind → String
  | other n => n
  | k => ((named.find? (·.1 == k)).map (·.2)).getD ""

def ofName (n : String) : TokenKind := ((named.find? (·.2 == n)).map (·.1)).getD (other n)

theorem name_ofName (n : String) : (ofName n).name = n := by
  unfold ofName
  cases h : named.find? (·.2 == n) with
  | none => rfl
  | some p =>
    have hn := List.find?_some h
    have hm := List.mem_of_find?_eq_some h
    simp only [beq_iff_eq] at hn
    subst hn
    revert p
    simp [named, name]

end TokenKind

/-- The label of a tree. -/
inductive Label where
  | program | block | assignment | functionCall | identifier | constant
  | additive | multiplicative | comparison | negate | ifBlock | whileBlock | elseBlock
  | other (name : String)
  deriving DecidableEq, Repr

namespace Label

/-- The labels that have a meaning, with their names. -/
def named : List (Label × String) :=
  [(program, "program"), (block, "block"), (assignment, "assignment"),
   (functionCall, "function_call"), (identifier, "identifier"), (constant, "constant"),
   (additive, "additive"), (multiplicative, "multiplicative"), (comparison, "comparison"),
   (negate, "negate"), (ifBlock, "if_block"), (whileBlock, "while_block"),
   (elseBlock, "else_block")]

def name : Label → String
  | other n => n
  | l => ((named.find? (·.1 == l)).map (·.2)).getD ""

def ofName (n : String) : Label := ((named.find? (·.2 == n)).map (·.1)).getD (other n)

/-- Whether a label names a rule of the grammar, and not one of the forms of a rule. -/
def isRule : Label → Bool
  | program | block | assignment | functionCall | constant | ifBlock | whileBlock | elseBlock =>
    true
  | _ => false

/-- The label as it is named in a report. On a tree that was read, the name of a rule is a token. -/
def describe (l : Label) (place : Place) : String :=
  match place with
  | .span _ =>
    if l.isRule then "Token('RULE', " ++ Text.quoted l.name ++ ")" else Text.quoted l.name
  | .unknown | .given .. => Text.quoted l.name

theorem name_ofName (n : String) : (ofName n).name = n := by
  unfold ofName
  cases h : named.find? (·.2 == n) with
  | none => rfl
  | some p =>
    have hn := List.find?_some h
    have hm := List.mem_of_find?_eq_some h
    simp only [beq_iff_eq] at hn
    subst hn
    revert p
    simp [named, name]

end Label

/-- A token with its text, or a labelled tree over further nodes. -/
inductive Node where
  | token (kind : TokenKind) (text : String) (place : Place)
  | tree (label : Label) (kids : List Node) (place : Place)
  deriving Repr

namespace Node

def place : Node → Place
  | token _ _ p => p
  | tree _ _ p => p

def kids : Node → List Node
  | token .. => []
  | tree _ ks _ => ks

def isTree : Node → Bool
  | token .. => false
  | tree .. => true

def label? : Node → Option Label
  | token .. => none
  | tree l .. => some l

def kind? : Node → Option TokenKind
  | token k .. => some k
  | tree .. => none

def text? : Node → Option String
  | token _ t _ => some t
  | tree .. => none

/-- The node with every place in it forgotten. -/
def unplaced : Node → Node
  | token k t _ => token k t .unknown
  | tree l ks _ => tree l (unplacedAll ks) .unknown
where
  unplacedAll : List Node → List Node
    | [] => []
    | n :: ns => unplaced n :: unplacedAll ns

/-- The node as it is named in a report. -/
def describe : Node → String
  | token k t _ => "Token(" ++ Text.quoted k.name ++ ", " ++ Text.quoted t ++ ")"
  | tree l ks p =>
    "Tree(" ++ l.describe p ++ ", [" ++ String.intercalate ", " (describeAll ks) ++ "])"
where
  describeAll : List Node → List String
    | [] => []
    | n :: ns => describe n :: describeAll ns

end Node

end Scriptlet
