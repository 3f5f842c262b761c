import Conform.Attribute
import Conform.Binary64
import Conform.Cardinality
import Conform.Coercion
import Conform.Coercion.Document
import Conform.Coercion.Pass
import Conform.Decimal.Layout
import Conform.Decimal.Shortest
import Conform.Entry
import Conform.Failure
import Conform.Forest
import Conform.Hex
import Conform.Instant
import Conform.Json.Doc
import Conform.Json.Numeral
import Conform.Json.Printer
import Conform.Json.Token
import Conform.Json.ValueForm
import Conform.Json.Written
import Conform.Keyed
import Conform.Kind
import Conform.Path
import Conform.Proofs.Attribute
import Conform.Proofs.Attribute.Fitting
import Conform.Proofs.Binary64
import Conform.Proofs.Cardinality
import Conform.Proofs.Coercion.Copies
import Conform.Proofs.Coercion.Leaf
import Conform.Proofs.Coercion.Objections
import Conform.Proofs.Coercion.Options
import Conform.Proofs.Coercion.Order
import Conform.Proofs.Coercion.Pass
import Conform.Proofs.Coercion.Repetition
import Conform.Proofs.Coercion.Settings
import Conform.Proofs.Failure
import Conform.Proofs.Forest
import Conform.Proofs.Path
import Conform.Proofs.Request.Acceptance
import Conform.Proofs.Request.Documents
import Conform.Proofs.Request.Rendering
import Conform.Proofs.Request.RoundTrip
import Conform.Proofs.Schema.Associativity
import Conform.Proofs.Schema.Compatibility
import Conform.Proofs.Schema.Conflicts
import Conform.Proofs.Schema.Leaves
import Conform.Proofs.Schema.Merge
import Conform.Proofs.Schema.Offences
import Conform.Proofs.Schema.OneSided
import Conform.Proofs.Schema.RoundTrip
import Conform.Proofs.Schema.Rows
import Conform.Proofs.Schema.Symmetry
import Conform.Proofs.Schema.Verification
import Conform.Proofs.Tree.Addresses
import Conform.Proofs.Tree.Ascents
import Conform.Proofs.Tree.Branches
import Conform.Proofs.Tree.Comparison
import Conform.Proofs.Tree.Copiers
import Conform.Proofs.Tree.Copies
import Conform.Proofs.Tree.Frames
import Conform.Proofs.Tree.Growth
import Conform.Proofs.Tree.Histories
import Conform.Proofs.Tree.Links
import Conform.Proofs.Tree.Lookup
import Conform.Proofs.Tree.Loops
import Conform.Proofs.Tree.Moves
import Conform.Proofs.Tree.Origins
import Conform.Proofs.Tree.Outlines
import Conform.Proofs.Tree.Payloads
import Conform.Proofs.Tree.Places
import Conform.Proofs.Tree.Reachable
import Conform.Proofs.Tree.Refusals
import Conform.Proofs.Tree.Relocations
import Conform.Proofs.Tree.Removal
import Conform.Proofs.Tree.Reparenting
import Conform.Proofs.Tree.Replacement
import Conform.Proofs.Tree.Revisions
import Conform.Proofs.Tree.Sizes
import Conform.Proofs.Tree.Survivors
import Conform.Proofs.Tree.Tours
import Conform.Proofs.Tree.Trails
import Conform.Proofs.Tree.Transfers
import Conform.Proofs.Tree.Validation
import Conform.Proofs.Tree.Visits
import Conform.Proofs.Tree.Ways
import Conform.Proofs.Value.Agreement
import Conform.Proofs.Value.Documents
import Conform.Proofs.Value.Shapes
import Conform.Proofs.Zone.Clocks
import Conform.Proofs.Zone.LocalTimes
import Conform.Proofs.Zone.Options
import Conform.Proofs.Zone.Resolution
import Conform.Request.Document
import Conform.Sample
import Conform.Schema.Document
import Conform.Schema.Merge
import Conform.Schema.Verify
import Conform.Text.Blank
import Conform.Tree
import Conform.Tree.Check
import Conform.Tree.Compare
import Conform.Tree.Copy
import Conform.Tree.Edit
import Conform.Tree.Lineage
import Conform.Tree.Outline
import Conform.Tree.Place
import Conform.Tree.Walk
import Conform.Value
import Conform.Value.Distinct
import Conform.Value.Kind
import Conform.Zone
import Conform.Zone.Greenwich
