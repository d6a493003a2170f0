import Scriptlet.Arithmetic
import Scriptlet.Decimal.Layout
import Scriptlet.Decimal.Reading
import Scriptlet.Decimal.Shortest
import Scriptlet.Environment
import Scriptlet.Eval
import Scriptlet.Fault
import Scriptlet.Host
import Scriptlet.Host.Catalogue
import Scriptlet.Host.Standard
import Scriptlet.Literal
import Scriptlet.Main
import Scriptlet.Node
import Scriptlet.Run
import Scriptlet.Shell.Braces
import Scriptlet.Shell.Command
import Scriptlet.Shell.CommandLine
import Scriptlet.Shell.Completion
import Scriptlet.Shell.Dialogue
import Scriptlet.Shell.Folder
import Scriptlet.Shell.Log
import Scriptlet.Source.Position
import Scriptlet.Source.Program
import Scriptlet.Source.Progress
import Scriptlet.Source.Reading
import Scriptlet.Source.Scan
import Scriptlet.Source.Token
import Scriptlet.Text.Blank
import Scriptlet.Text.Digit
import Scriptlet.Text.Lines
import Scriptlet.Text.Printable
import Scriptlet.Text.Quoted
import Scriptlet.Value
import Scriptlet.Workspace
import Scriptlet.Proofs.Bindings
import Scriptlet.Proofs.Continuing
import Scriptlet.Proofs.Escaping
import Scriptlet.Proofs.Grammar
import Scriptlet.Proofs.InTurn
import Scriptlet.Proofs.Keeping
import Scriptlet.Proofs.Literals
import Scriptlet.Proofs.Locating
import Scriptlet.Proofs.Productions
import Scriptlet.Proofs.Reading.Building
import Scriptlet.Proofs.Rendering
import Scriptlet.Proofs.Safety
import Scriptlet.Proofs.Shell.Standard
import Scriptlet.Proofs.Soundness
import Scriptlet.Proofs.Spans
import Scriptlet.Proofs.Mentions
import Scriptlet.Proofs.Dependence
import Scriptlet.Proofs.Shell.Nesting
import Scriptlet.Proofs.Shell.Sessions
import Scriptlet.Proofs.Shell.Typing
import Scriptlet.Proofs.Shell.Cleaning
import Scriptlet.Proofs.Calling
import Scriptlet.Proofs.Choosing
import Scriptlet.Proofs.Exchanging
import Scriptlet.Proofs.Looping
import Scriptlet.Proofs.Stopping
import Scriptlet.Proofs.Keywords
import Scriptlet.Proofs.Auditing
import Scriptlet.Proofs.Shell.Logging
import Scriptlet.Proofs.Visiting
import Scriptlet.Proofs.Overflow
import Scriptlet.Proofs.Shell.Cutting
import Scriptlet.Proofs.Naming
import Scriptlet.Proofs.Kinds
import Scriptlet.Proofs.Substituting
import Scriptlet.Proofs.Denoting
import Scriptlet.Proofs.Chaining
import Scriptlet.Proofs.Misfits
import Scriptlet.Proofs.Shell.Arguments
