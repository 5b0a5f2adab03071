import BoundNames.Bindings
import BoundNames.Edit
import BoundNames.Extraction
import BoundNames.Json.Reader
import BoundNames.Logging.Filter
import BoundNames.Tree
import BoundNames.Proofs.Growth
import BoundNames.Proofs.Storing
import BoundNames.Proofs.Invariant
import BoundNames.Proofs.Reachable
import BoundNames.Proofs.Fields
import BoundNames.Proofs.Nodes
import BoundNames.Proofs.Layout
import BoundNames.Proofs.Visits
import BoundNames.Proofs.Paths
import BoundNames.Proofs.TreeBindings
import BoundNames.Proofs.Extraction
import BoundNames.Proofs.Marks
import BoundNames.Proofs.Order
import BoundNames.Proofs.Relocation
import BoundNames.Proofs.Forest
import BoundNames.Proofs.Parents
import BoundNames.Proofs.Unfolding
import BoundNames.Proofs.Accumulator
import BoundNames.Proofs.Interning
import BoundNames.Proofs.Names
import BoundNames.Proofs.Inert
import BoundNames.Proofs.Correspondence
import BoundNames.Proofs.FieldOrder
import BoundNames.Proofs.Holes
import BoundNames.Proofs.Reports
import BoundNames.Proofs.Addition
import BoundNames.Proofs.Nesting
import BoundNames.Proofs.Collected
import BoundNames.Proofs.Types
import BoundNames.Proofs.Capacity
import BoundNames.Proofs.Readings
