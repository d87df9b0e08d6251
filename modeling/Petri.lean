import Petri.Bipartite.Import
import Petri.Datum.Collection
import Petri.Datum.Summary
import Petri.Graph.Edit
import Petri.Graph.Value
import Petri.Net.Canonical
import Petri.Net.MarkingSet
import Petri.Proofs.Construction
import Petri.Proofs.Markings
import Petri.Proofs.Validation
import Petri.Proofs.Stages
import Petri.Proofs.Capacities
import Petri.Proofs.Runs
import Petri.Proofs.Boundedness
import Petri.Proofs.Reversal
import Petri.Proofs.Precondition
import Petri.Proofs.Predecessors
import Petri.Proofs.BackwardSearch
import Petri.Proofs.BackwardBound
import Petri.Proofs.Arcs
import Petri.Proofs.Acceptance
import Petri.Proofs.Export
import Petri.Proofs.RoundTrip
import Petri.Proofs.StateEquation
import Petri.Proofs.Mappings
import Petri.Proofs.Successors
import Petri.Proofs.Correspondence
import Petri.Proofs.Enlargement
import Petri.Proofs.Reordering
import Petri.Proofs.SoundGraphs
import Petri.Proofs.BipartiteGraphs
import Petri.Proofs.Restoration
import Petri.Proofs.Duality
import Petri.Proofs.Closure
import Petri.Proofs.Invariants
import Petri.Proofs.Locality
import Petri.Proofs.Juxtaposition
import Petri.Proofs.FiringRule
import Petri.Proofs.ReversalRule
import Petri.Proofs.Independence
import Petri.Proofs.CanonicalMarkings
import Petri.Proofs.Joins
import Petri.Proofs.SuccessorSets
import Petri.Proofs.PredecessorSets
import Petri.Proofs.Convexity
import Petri.Proofs.MarkingOrder
import Petri.Proofs.Domains
import Petri.Proofs.Codec
import Petri.Proofs.Merging
import Petri.Proofs.Sorting
import Petri.Proofs.Wording
import Petri.Proofs.Labels
import Petri.Proofs.Listings
import Petri.Proofs.RepeatedPlaces
