import Espalier.Markup.Parse
import Espalier.Markup.Settings
import Espalier.Sink.Recorder
import Espalier.Tree.Outline
import Espalier.Tree.Path
import Espalier.Tree.Snapshot
import Espalier.Proofs.Program
import Espalier.Proofs.Text.Bare
import Espalier.Proofs.Text.Capped
import Espalier.Proofs.Attributes.Entries
import Espalier.Proofs.Attributes.Grammar
import Espalier.Proofs.Attributes.Written
import Espalier.Proofs.Sink.Recorder
import Espalier.Proofs.Markup.Blocks
import Espalier.Proofs.Markup.Balance
import Espalier.Proofs.Markup.Lookup
import Espalier.Proofs.Markup.Growth
import Espalier.Proofs.Markup.Coverage
import Espalier.Proofs.Markup.Declared
import Espalier.Proofs.Markup.Compositional
import Espalier.Proofs.Markup.Element
import Espalier.Proofs.Markup.Forest
import Espalier.Proofs.Markup.Keeping
import Espalier.Proofs.Tree.Links
import Espalier.Proofs.Tree.Reshape
import Espalier.Proofs.Tree.Descent
import Espalier.Proofs.Tree.Walk
import Espalier.Proofs.Tree.Operations
import Espalier.Proofs.Tree.Keys
import Espalier.Proofs.Tree.Removal
import Espalier.Proofs.Tree.Reachable
import Espalier.Proofs.Tree.Sound
import Espalier.Proofs.Tree.Release
import Espalier.Proofs.Tree.Bindings
import Espalier.Proofs.Tree.Order
import Espalier.Proofs.Tree.Building
import Espalier.Proofs.Markup.InDocument
import Espalier.Proofs.Tree.Queries
import Espalier.Proofs.Tree.Refusal
import Espalier.Proofs.Markup.Recorded
import Espalier.Proofs.Markup.Alike
import Espalier.Proofs.Markup.Blind
import Espalier.Proofs.Markup.CallOrder
import Espalier.Proofs.Tree.Vocabulary
import Espalier.Proofs.Json.RoundTrip
import Espalier.Proofs.Json.Fields
import Espalier.Proofs.Tree.Snapshot
import Espalier.Proofs.Markup.Boundary
import Espalier.Proofs.Markup.Expansion
import Espalier.Proofs.Markup.Fault
import Espalier.Proofs.Markup.Spacing
import Espalier.Proofs.Tree.Traversal
import Espalier.Proofs.Tree.Rendering
import Espalier.Proofs.Tree.Insertion
import Espalier.Proofs.Tree.Drops
import Espalier.Proofs.Tree.Pruning
import Espalier.Proofs.Tree.Clauses
import Espalier.Proofs.Tree.Assignment
import Espalier.Proofs.Tree.EachNode
import Espalier.Proofs.Tree.Styles
import Espalier.Proofs.Tree.Navigation
import Espalier.Proofs.Tree.Paths
import Espalier.Proofs.Tree.NodeForm
import Espalier.Proofs.Tree.Attaching
import Espalier.Proofs.Tree.BareArena
import Espalier.Proofs.Json.Compact
