import Scriptlet.Run
/-!
# Logs

The record of a run for whoever debugs it: a line for each completed binding and for each call that
is about to be made. The levels are ordered, and only the two lowest ask for these lines.
-/

namespace Scriptlet.Shell

/-- The levels by name, with their weights. -/
def levels : List (String × Nat) :=
  [("CRITICAL", 50), ("FATAL", 50), ("ERROR", 40), ("WARN", 30), ("WARNING", 30), ("INFO", 20),
   ("DEBUG", 10), ("NOTSET", 0)]

/-- A letter in upper case, for the letters whose upper case is an ASCII letter. -/
def upperLetter (c : Char) : Char :=
  if c.toNat = 0x131 then 'I' else if c.toNat = 0x17f then 'S' else c.toUpper

/-- The weight of a level's name, in letters of either case. -/
def levelWeight? (name : String) : Option Nat :=
  levels.lookup (String.ofList (name.toList.map upperLetter))

/-- The heaviest level at which the lines for debugging are written. -/
def debugWeight : Nat := 10

/-- The line for an event, if it has one. -/
def logLine? : Event → Option String
  | .bind name v => some ("DEBUG lang_ref.eval.bind: bind " ++ name ++ " = " ++ v.describe ++ "\n")
  | .call name count =>
    some ("DEBUG lang_ref.eval.chains: call " ++ name ++ " with " ++ toString count ++
      " argument(s)\n")
  | .enter .. | .print _ => none

/-- The lines for the events of a log whose latest event comes first. -/
def logText (log : List Event) : String := String.join (log.reverse.filterMap logLine?)

end Scriptlet.Shell
