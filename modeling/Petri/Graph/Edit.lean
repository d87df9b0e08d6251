import Petri.Graph.Basic

/-!
# Edits of graphs

An edit is one change of a graph; a list of edits is made in order, and the first that fails decides. Where
edges may be parallel, the key of a new edge is given among its attributes.
-/

namespace Petri.Graph

/-- A change of a graph. -/
inductive Edit where
  | addNode (id : Datum) (attributes : Attributes)
  | addEdge (source target : Datum) (attributes : Attributes)
  | setNodeAttribute (id name value : Datum)
  | eraseNodeAttribute (id name : Datum)
  | removeNode (id : Datum)
  | removeEdge (source target : Datum)

/-- The name under which a parallel edge takes its key. -/
def keyName : Datum := .str "key"

/-- The graph after one change. -/
def edit (g : Graph) : Edit → Except Fault Graph
  | .addNode id attributes => g.addNode id attributes
  | .addEdge source target attributes =>
    if g.multi then
      let key := (attributes.get? keyName).getD .null
      g.addEdge source target key (attributes.erase keyName)
    else g.addEdge source target .null attributes
  | .setNodeAttribute id name value => g.setNodeAttribute id name value
  | .eraseNodeAttribute id name => g.eraseNodeAttribute id name
  | .removeNode id => g.removeNode id
  | .removeEdge source target => g.removeEdge source target

/-- The graph after changes made in order. -/
def editAll (g : Graph) (edits : List Edit) : Except Fault Graph :=
  edits.foldlM edit g

end Petri.Graph
