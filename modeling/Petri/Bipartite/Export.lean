import Petri.Graph.Basic
import Petri.Net.Basic

/-!
# Nets as bipartite graphs

The graph of a net has a node for every place and every transition and an edge for every arc. Nodes carry a
mark for their side, a label, their kind and, at places, the capacity; edges carry their role and weight. A
net has no graph if one of its identifiers has no label.
-/

namespace Petri.Bipartite

/-- Names and marks of a bipartite graph. -/
structure Names where
  /-- The attribute that holds the weight of an edge. -/
  weight : Datum := .str "weight"
  /-- The attribute that holds the capacity of a place. -/
  capacity : Datum := .str "capacity"
  /-- The marks of places and of transitions. -/
  sides : Datum := .tuple [.int 0, .int 1]

/-- The two members of a collection of two. -/
def pair (x : Datum) : Except Datum.Fault (Datum × Datum) := do
  match ← x.items with
  | [a, b] => return (a, b)
  | _ => throw .notPair

/-- The attributes of a node with a label, before a capacity. -/
def labelledAttributes (side : Datum) (label kind : String) : Attributes :=
  .ofList [(.str "bipartite", side), (.str "label", .str label), (.str "kind", .str kind)]

/-- The attributes of a node, before a capacity. -/
def nodeAttributes (side id : Datum) (kind : String) : Except Datum.Fault Attributes := do
  return labelledAttributes side (← id.label) kind

/-- Adds the node of a place. -/
def addPlace (names : Names) (side : Datum) (withCapacity : Bool) (g : Graph) (place : Datum × Int) :
    Except Graph.Fault Graph := do
  let attributes ← nodeAttributes side place.1 "place"
  g.addNode place.1 <|
    if withCapacity then attributes.put names.capacity (.int place.2) else attributes

/-- Adds the node of a transition. -/
def addTransition (side : Datum) (g : Graph) (transition : Datum) : Except Graph.Fault Graph := do
  g.addNode transition (← nodeAttributes side transition "transition")

/-- Adds the edge of an arc of weight `weight`, which cannot stand under the name of the role. -/
def addArc (names : Names) (d : Direction) (g : Graph) (source target : Datum) (weight : Int) :
    Except Graph.Fault Graph := do
  Graph.checkName ["role"] names.weight
  g.addEdge source target .null
    (.ofList [(.str "role", .str d.name), (names.weight, .int weight)])

/-- Adds the edges of all arcs of direction `d`, transition by transition. -/
def addArcs (names : Names) (net : Net) (d : Direction) (g : Graph) : Except Graph.Fault Graph :=
  (net.arcTable d).foldlM (fun g (t, column) =>
    column.foldlM (fun g (p, weight) =>
      match d with
      | .pre => addArc names d g p t weight
      | .post => addArc names d g t p weight) g) g

/-- The graph of a net. -/
def ofNet (net : Net) (names : Names) (withCapacity : Bool) : Except Graph.Fault Graph := do
  let (placeSide, transitionSide) ← pair names.sides
  let g ← net.capacities.foldlM (addPlace names placeSide withCapacity) ({} : Graph)
  let g ← net.transitions.foldlM (addTransition transitionSide) g
  let g ← addArcs names net .pre g
  addArcs names net .post g

end Petri.Bipartite
