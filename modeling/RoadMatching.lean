import RoadMatching.Geo.Earth
import RoadMatching.Graph.Record
import RoadMatching.Graph.Search
import RoadMatching.Json.Parser
import RoadMatching.Json.Pointer
import RoadMatching.Json.Transform
import RoadMatching.Markov.Filter
import RoadMatching.Markov.Snapshot
import RoadMatching.Matching.Codec
import RoadMatching.Matching.Export
import RoadMatching.Road.Route
import RoadMatching.Proofs.Routing.Adjacency
import RoadMatching.Proofs.Routing.Trip
import RoadMatching.Proofs.Routing.Steps
import RoadMatching.Proofs.Routing.Trace
import RoadMatching.Proofs.Routing.Budget
import RoadMatching.Proofs.Routing.Frontier
import RoadMatching.Proofs.Routing.Cheapest
import RoadMatching.Proofs.Memory.Links
import RoadMatching.Proofs.Memory.Eviction
import RoadMatching.Proofs.Memory.Pruning
import RoadMatching.Proofs.Memory.Retention
import RoadMatching.Proofs.Memory.Bounds
import RoadMatching.Proofs.Memory.History
import RoadMatching.Proofs.Memory.Readout
import RoadMatching.Proofs.Filtering.Arrivals
import RoadMatching.Proofs.Filtering.Layers
import RoadMatching.Proofs.Memory.Pointers
import RoadMatching.Proofs.Filtering.Recurrence
import RoadMatching.Proofs.Filtering.Viterbi
import RoadMatching.Proofs.Routing.Soundness
import RoadMatching.Proofs.Routing.Views
import RoadMatching.Proofs.Routing.Limits
import RoadMatching.Proofs.Routing.Cutoff
import RoadMatching.Proofs.Routing.Targets
import RoadMatching.Proofs.Routing.Independence
import RoadMatching.Proofs.Routing.Changes
import RoadMatching.Proofs.Matching.Transitions
import RoadMatching.Proofs.Filtering.Normalisation
import RoadMatching.Proofs.Filtering.Posterior
import RoadMatching.Proofs.Number.Special
import RoadMatching.Proofs.Number.Laws
import RoadMatching.Proofs.Memory.Records
import RoadMatching.Proofs.Memory.Restoring
import RoadMatching.Proofs.Memory.Resuming
import RoadMatching.Proofs.Memory.Complete
import RoadMatching.Proofs.Memory.References
import RoadMatching.Proofs.Filtering.Origins
import RoadMatching.Proofs.Memory.Appended
import RoadMatching.Proofs.Memory.Chains
import RoadMatching.Proofs.Matching.Calls
import RoadMatching.Proofs.Matching.Streets
import RoadMatching.Proofs.Matching.Runs
import RoadMatching.Proofs.Matching.Joints
import RoadMatching.Proofs.Text.Coordinates
import RoadMatching.Proofs.Matching.Writing
import RoadMatching.Proofs.Matching.Persistence
import RoadMatching.Proofs.Matching.Reducing
import RoadMatching.Proofs.Road.Directions
import RoadMatching.Proofs.Memory.Atomicity
import RoadMatching.Proofs.Filtering.Recovery
import RoadMatching.Proofs.Road.Lines
import RoadMatching.Proofs.Matching.Turning
import RoadMatching.Proofs.Road.Courses
import RoadMatching.Proofs.Routing.Joining
import RoadMatching.Proofs.Road.Continuation
import RoadMatching.Proofs.Routing.Classes
import RoadMatching.Proofs.Routing.Components
import RoadMatching.Proofs.Routing.Ring
import RoadMatching.Proofs.Road.Places
import RoadMatching.Proofs.Road.Hits
import RoadMatching.Proofs.Road.Reversal
import RoadMatching.Proofs.Road.Interception
import RoadMatching.Proofs.Matching.Positions
import RoadMatching.Proofs.Road.Locating
import RoadMatching.Proofs.Memory.Agreement
import RoadMatching.Proofs.Routing.Termination
import RoadMatching.Proofs.Road.Nearest
