import MeshRing.Ring.Audit
import MeshRing.Ring.Edit
import MeshRing.Snapshot.Replay
import MeshRing.Proofs.Edits
import MeshRing.Proofs.Indexes
import MeshRing.Proofs.Replay
import MeshRing.Audited
import MeshRing.Proofs.Audits
import MeshRing.Proofs.Policies
import MeshRing.Proofs.RoundTrip
import MeshRing.Proofs.Places
import MeshRing.Proofs.Membership
import MeshRing.Proofs.Reports
import MeshRing.Proofs.Interleavings
import MeshRing.Proofs.Tolerances
import MeshRing.Proofs.Equality
import MeshRing.Proofs.Loading
import MeshRing.Proofs.Grammar
import MeshRing.Proofs.CheckedRuns
import MeshRing.Proofs.Comparisons
import MeshRing.Proofs.Growth
import MeshRing.Proofs.LargerTolerances
import MeshRing.Proofs.Inserts
import MeshRing.Proofs.ExactAreas
import MeshRing.Proofs.Directions
import MeshRing.Proofs.SoundTriangles
import MeshRing.Proofs.CornerOrders
import MeshRing.Proofs.RefusedTriangles
import MeshRing.Proofs.Grid
import MeshRing.Proofs.Scales
import MeshRing.Proofs.DecimalTexts
import MeshRing.Proofs.FaultTexts
