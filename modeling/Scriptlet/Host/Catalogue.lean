import Scriptlet.Host.Standard
/-!
# A catalogue of host functions

Small functions, one for each way in which a host function can answer. A host picks one by its name
here and lends it under a name of its own choice.
-/

namespace Scriptlet.Host

/-- Whether a number is below three; a truth value counts as zero or one. -/
def below3 : Value → Answer
  | .int n => .value (.bool (n < 3))
  | .float x => .value (.bool (x < 3.0))
  | .bool _ => .value (.bool true)
  | _ => .rejected "'<' not supported between instances of 'str' and 'int'"

/-- The answer made from the first argument. -/
def onFirst (f : Value → Answer) : List Value → Answer
  | v :: _ => f v
  | [] => .fails .missingArgument

def catalogue : List (String × Native) :=
  [("id", fun args => ⟨"", onFirst .value args⟩),
   ("count", fun args => ⟨"", .value (.int args.length)⟩),
   ("echo", fun args => printLine ["echo"] args (onFirst .value args)),
   ("below3", fun args => ⟨"", onFirst below3 args⟩),
   ("none", fun _ => ⟨"", .nothing⟩),
   ("raw_int", fun _ => ⟨"", .foreign "int"⟩),
   ("raw_str", fun _ => ⟨"", .foreign "str"⟩),
   ("raise_zero", fun _ => ⟨"", .incomputable "zero!"⟩),
   ("raise_overflow", fun _ => ⟨"", .incomputable "too big"⟩),
   ("raise_type", fun _ => ⟨"", .rejected "bad type"⟩),
   ("raise_value", fun _ => ⟨"", .rejected "bad value"⟩),
   ("raise_name", fun _ => ⟨"", .fails (.undefined "Widget" "thing")⟩),
   ("raise_key", fun _ => ⟨"", .fails (.missingKey "lost")⟩)]

/-- The function of a name in the catalogue. -/
def catalogued? (name : String) : Option Native := catalogue.lookup name

end Scriptlet.Host
