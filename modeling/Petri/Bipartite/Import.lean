import Petri.Bipartite.Export
import Petri.Net.Build

/-!
# Nets from bipartite graphs

The nodes of a graph are classified as places and transitions by their kind or, where they have none, by
their side. Its edges must join the two classes and become arcs; capacities count if every place has one.
-/

namespace Petri.Bipartite

/-- The two classes of nodes. -/
inductive Kind where
  | place
  | transition
  deriving DecidableEq, Repr

/-- The class that a node declares, by its kind or else by its side. -/
def kind? (placeSide transitionSide : Datum) (attributes : Attributes) : Option Kind :=
  match attributes.get? (.str "kind") with
  | some (.str "place") => some .place
  | some (.str "transition") => some .transition
  | none | some .null =>
    let side := (attributes.get? (.str "bipartite")).getD .null
    if side.equals placeSide then some .place
    else if side.equals transitionSide then some .transition
    else none
  | some _ => none

/-- The nodes with their classes. -/
def classify (placeSide transitionSide : Datum) (g : Graph) : Except Fault (List (Datum × Kind)) :=
  g.nodes.entries.mapM fun (id, node) =>
    match kind? placeSide transitionSide node.attributes with
    | some k => .ok (id, k)
    | none => (Fault.unclassifiedNode id).raise

/-- The nodes of one class. -/
def ofKind (classified : List (Datum × Kind)) (k : Kind) : List Datum :=
  (classified.filter (·.2 == k)).map (·.1)

/-- The attribute `name`, if it is there. -/
def attribute? (name : Datum) (attributes : Attributes) : Except Datum.Fault (Option Datum) := do
  name.requireHashable
  return attributes.get? name

/-- The arc of an edge; without a weight it moves one token. -/
def arcOfEdge (weightName : Datum) (places : List Datum) (e : Graph.Edge) : Except Fault Arc := do
  let weight := (← attribute? weightName e.attributes).getD (.int 1)
  match places.any (· == e.source), places.any (· == e.target) with
  | true, false => Arc.make .pre e.source e.target weight
  | false, true => Arc.make .post e.target e.source weight
  | _, _ => (Fault.misjoinedEdge e.source e.target).raise

/-- The capacities of the places, if there are places and every one has a capacity. -/
def capacityOfNodes (capacityName : Datum) (places : List Datum) (g : Graph) : Except Fault Datum := do
  let found ← places.mapM fun p => do
    let attributes := ((g.nodes.get? p).map (·.attributes)).getD {}
    return (p, ← attribute? capacityName attributes)
  let known := found.filterMap fun (p, c) => c.map (p, ·)
  return if known.length = places.length then .dict known else .null

/-- The declared places, the declared transitions, the arcs and the capacities that a graph describes. -/
def describe (g : Graph) (names : Names) : Except Fault (Datum × Datum × List Arc × Datum) := do
  let (placeSide, transitionSide) ← pair names.sides
  let classified ← classify placeSide transitionSide g
  let places := ofKind classified .place
  let arcs ← g.edges.mapM (arcOfEdge names.weight places)
  let capacity ← capacityOfNodes names.capacity places g
  return (.list places, .list (ofKind classified .transition), arcs, capacity)

/-- The net of a bipartite graph. -/
def toNet (g : Graph) (names : Names) (defaultCapacity : Datum) : Logged Net :=
  match describe g names with
  | .ok (places, transitions, arcs, capacity) =>
    Net.build places transitions arcs capacity defaultCapacity
  | .error fault => ⟨.error fault, []⟩

end Petri.Bipartite
