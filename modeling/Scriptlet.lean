import Scriptlet.Main
import Scriptlet.Proofs.Building
import Scriptlet.Proofs.Expression.Basic
import Scriptlet.Proofs.Expression.Grouping
import Scriptlet.Proofs.Parentheses
import Scriptlet.Proofs.Runs
import Scriptlet.Proofs.Expression.BindingPower
import Scriptlet.Proofs.Expression.Recognition
import Scriptlet.Proofs.Expression.Connectives
import Scriptlet.Proofs.Program
import Scriptlet.Proofs.Concatenation
import Scriptlet.Proofs.Relocation
import Scriptlet.Proofs.Boundary
import Scriptlet.Proofs.Scanning
import Scriptlet.Proofs.Lines
import Scriptlet.Proofs.InOrder
import Scriptlet.Proofs.Regrouping
import Scriptlet.Proofs.Fidelity
import Scriptlet.Proofs.Printing.Layout
import Scriptlet.Proofs.Printing.Tree
import Scriptlet.Proofs.Printing.RoundTrip
import Scriptlet.Proofs.Nodes
import Scriptlet.Proofs.Comparison
import Scriptlet.Proofs.Fuel
import Scriptlet.Proofs.Consumers
import Scriptlet.Proofs.Session.Basic
import Scriptlet.Proofs.Session.Invariant
import Scriptlet.Proofs.Session.Splitting
import Scriptlet.Proofs.Spacing
import Scriptlet.Proofs.Separation
import Scriptlet.Proofs.Pattern
import Scriptlet.Proofs.Tiling
import Scriptlet.Proofs.LineBreaks
import Scriptlet.Proofs.Nesting
import Scriptlet.Proofs.Locality
import Scriptlet.Proofs.Contract
import Scriptlet.Proofs.Encoding
import Scriptlet.Proofs.Events.Basic
import Scriptlet.Proofs.Events.Session
import Scriptlet.Proofs.Events.Input
import Scriptlet.Proofs.Events.Output
import Scriptlet.Proofs.Diagnostics.Parsing
import Scriptlet.Proofs.Diagnostics.Evaluation
import Scriptlet.Proofs.Juxtaposition
import Scriptlet.Proofs.Power
import Scriptlet.Proofs.Numbering
import Scriptlet.Proofs.Serialization
import Scriptlet.Proofs.Effects
import Scriptlet.Proofs.Literal
import Scriptlet.Proofs.Arithmetic
import Scriptlet.Proofs.Rendering
import Scriptlet.Proofs.Diagnostics.Literals
import Scriptlet.Proofs.Printing.Integer
import Scriptlet.Proofs.Blocks.Extraction
