import ScalarGraph.Main
import ScalarGraph.Session
import ScalarGraph.Proofs.Tape.Requests
import ScalarGraph.Proofs.Graph.Gradient
import ScalarGraph.Proofs.Blocked
import ScalarGraph.Proofs.Program.Blocked
import ScalarGraph.Proofs.Binary64
import ScalarGraph.Proofs.Graph.Blocked
import ScalarGraph.Proofs.Tape.Extraction
import ScalarGraph.Proofs.Construct
import ScalarGraph.Proofs.Term.Derivative
import ScalarGraph.Proofs.Evaluation
import ScalarGraph.Proofs.Tape.Program
import ScalarGraph.Proofs.Workspace.Reached
import ScalarGraph.Proofs.Term.Program
import ScalarGraph.Proofs.Workspace.Sharing
import ScalarGraph.Proofs.Workspace.Canonical
import ScalarGraph.Proofs.Graph.RoundTrip
import ScalarGraph.Proofs.Graph.Evaluation
import ScalarGraph.Proofs.Workspace.Replay
import ScalarGraph.Proofs.Workspace.Rebuild
import ScalarGraph.Proofs.Graph.Faults
import ScalarGraph.Proofs.Graph.Reordering
import ScalarGraph.Proofs.Workspace.Secondary
import ScalarGraph.Proofs.Random.Fixture
import ScalarGraph.Proofs.Graph.Cycle
import ScalarGraph.Proofs.Graph.Dual
import ScalarGraph.Proofs.Real
import ScalarGraph.Proofs.Term.Reduction
import ScalarGraph.Proofs.Graph.Filling
import ScalarGraph.Proofs.Term.Transparency
import ScalarGraph.Proofs.Session.Constructor
import ScalarGraph.Proofs.Session.Folding
import ScalarGraph.Proofs.Term.Items
import ScalarGraph.Proofs.Geometry.Pencil
import ScalarGraph.Proofs.Geometry.Polynomial
import ScalarGraph.Proofs.Geometry.HalfPlane
import ScalarGraph.Proofs.Term.Footprint
import ScalarGraph.Proofs.Derivative
import ScalarGraph.Proofs.Session.Numbers
import ScalarGraph.Proofs.Term.Power
import ScalarGraph.Proofs.Random.Total
import ScalarGraph.Proofs.Graph.Arrival
import ScalarGraph.Proofs.Workspace.Positions
