import SharpOutline.Proofs.Block.AttributeLists
import SharpOutline.Proofs.Block.Declarators
import SharpOutline.Proofs.Block.QualifiedNames
import SharpOutline.Proofs.Block.WrittenSignatures
import SharpOutline.Proofs.Document.Constraints
import SharpOutline.Proofs.Document.Headers
import SharpOutline.Proofs.Document.Nesting
import SharpOutline.Proofs.Document.Positions
import SharpOutline.Proofs.Document.Refusals
import SharpOutline.Proofs.Document.RoundTrip
import SharpOutline.Proofs.Document.StepCounts
import SharpOutline.Proofs.Layout.Copies
import SharpOutline.Proofs.Layout.Literals
import SharpOutline.Proofs.Layout.Types
import SharpOutline.Proofs.RegionMarkers
import SharpOutline.Proofs.Tree.Moves
import SharpOutline.Proofs.Tree.Traversals
import SharpOutline.Proofs.WordRows
import SharpOutline.Proofs.Layout.Members
