import Petri.Datum.Render
import Petri.Graph.Basic

/-!
# Graphs as values

Among values a graph is known by its number. It shows its nodes and, under every node, a view of what leads
on from it; a view is no more than its text, if it has one.
-/

namespace Petri.Graph

variable (g : Graph)

/-- The number of no thing, which views have. -/
def viewNumber : Nat := 0

/-- The edges to one target: the attributes of the only one, or those of all by key. -/
def linksDatum (links : Links) : Datum :=
  if g.multi then .dict (links.entries.map fun e => (e.1, .dict e.2.entries))
  else .dict (links.entries.flatMap (·.2.entries))

/-- The text of what leads on from a node. -/
def renderView? (node : Node) : Option String := do
  let targets := node.targets.entries.map fun e => (e.1, g.linksDatum e.2)
  return (if g.multi then "AdjacencyView(" else "AtlasView(") ++ (← (Datum.dict targets).render?) ++ ")"

/-- The size of the graph as text. -/
def render : String :=
  (if g.multi then "MultiDiGraph" else "DiGraph") ++ " with " ++ toString g.nodes.entries.length
    ++ " nodes and " ++ toString g.edges.length ++ " edges"

/-- The graph as a value, which is known by its number. -/
def toDatum (number : Nat) : Datum :=
  .graph number g.render (g.nodes.entries.map fun e => (e.1, .entity viewNumber (g.renderView? e.2)))

end Petri.Graph
