import ActionGraph.Engine
import ActionGraph.Graph.Patterns
import ActionGraph.Position
import ActionGraph.Proofs.Deadline
import ActionGraph.Proofs.Legible
import ActionGraph.Proofs.Resolution
import ActionGraph.Proofs.Join
import ActionGraph.Snapshot.Stream
import ActionGraph.Proofs.Reload
import ActionGraph.Proofs.Quiescence
import ActionGraph.Proofs.Firing
import ActionGraph.Proofs.Census
import ActionGraph.Proofs.Order
import ActionGraph.Proofs.Boundary
import ActionGraph.Proofs.Handover
import ActionGraph.Proofs.Safety
import ActionGraph.Proofs.Window
import ActionGraph.Proofs.Malformed
import ActionGraph.Proofs.Watching
import ActionGraph.Proofs.Latency
import ActionGraph.Proofs.Signals
import ActionGraph.Proofs.Stream
import ActionGraph.Proofs.FanIn
import ActionGraph.Proofs.Layers
import ActionGraph.Proofs.Provenance
import ActionGraph.Proofs.Completion
import ActionGraph.Proofs.Finality
import ActionGraph.Proofs.Breadth
import ActionGraph.Proofs.Chain
import ActionGraph.Proofs.Comparison
import ActionGraph.Proofs.Cancellation
import ActionGraph.Proofs.Branching
import ActionGraph.Proofs.Placeholders
import ActionGraph.Proofs.Sensitivity
import ActionGraph.Proofs.Scopes
import ActionGraph.Proofs.Registration
import ActionGraph.Proofs.Recycling
import ActionGraph.Proofs.Lookup
import ActionGraph.Proofs.Farewell
import ActionGraph.Proofs.Ledger
