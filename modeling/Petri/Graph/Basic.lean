import Petri.Datum.Access
import Petri.Table

/-!
# Directed graphs with attributes

The nodes of a graph and the targets of every node are tables, so each is listed in the order in which it
first came and keeps the spelling with which it came. A graph has one edge from a node to another, or,
where it is declared so, any number of parallel ones, which are told apart by keys; nodes and edges carry
attributes.
-/

namespace Petri

/-- Attributes by name. -/
abbrev Attributes := Table Datum Datum

namespace Graph

/-- Why a graph cannot be changed as asked. -/
inductive Fault where
  | value (cause : Datum.Fault)
  /-- The null value names no node. -/
  | nullNode
  | absentNode
  | absentEdge
  /-- Attributes are given by name, and a name is no text, is taken or is given twice. -/
  | badAttributeName

instance : MonadLift (Except Datum.Fault) (Except Fault) where
  monadLift r := r.mapError .value

/-- The edges from one node to another, by key. The one edge of a graph without parallel edges has the null
key. -/
abbrev Links := Table Datum Attributes

/-- What the graph holds of a node: its attributes and, by target, the edges that leave it. -/
structure Node where
  attributes : Attributes := {}
  targets : Table Datum Links := {}

end Graph

/-- A directed graph. -/
structure Graph where
  /-- Whether edges may be parallel. -/
  multi : Bool := false
  nodes : Table Datum Graph.Node := {}

namespace Graph

/-- An edge with its ends as they were first spelled for it. -/
structure Edge where
  source : Datum
  target : Datum
  attributes : Attributes

variable (g : Graph)

/-- The edges, by source in the order of the nodes, then by target, parallel ones by key. -/
def edges : List Edge :=
  g.nodes.entries.flatMap fun (u, node) =>
    node.targets.entries.flatMap fun (v, links) => links.entries.map fun e => ⟨u, v, e.2⟩

/-- The names under which a new node takes its own arguments; an attribute cannot have them. -/
def nodeNames : List String := ["self", "node_for_adding"]

/-- The names under which a new edge takes its ends. -/
def edgeNames : List String :=
  if g.multi then ["self", "u_for_edge", "v_for_edge"] else ["self", "u_of_edge", "v_of_edge"]

/-- Refuses what cannot name an attribute beside the names `taken`. -/
def checkName (taken : List String) (name : Datum) : Except Fault Unit :=
  match name with
  | .str s => if taken.contains s then .error .badAttributeName else .ok ()
  | _ => .error .badAttributeName

/-- Refuses what cannot name a node. -/
def checkNode (id : Datum) : Except Fault Unit := do
  id.requireHashable
  match id with
  | .null => throw .nullNode
  | _ => return

/-- Adds a node, or gives further attributes to a node that is there. -/
def addNode (id : Datum) (attributes : Attributes) : Except Fault Graph := do
  attributes.keys.forM (checkName nodeNames)
  checkNode id
  return { g with
    nodes := g.nodes.upsert id { attributes } fun node =>
      { node with attributes := node.attributes.update attributes } }

/-- The least number, from that of the links upward, that is no key of theirs. -/
def freshKey (links : Links) : Datum :=
  let n := links.entries.length
  let candidates := (List.range (n + 1)).map fun i => Datum.int (n + i : Nat)
  (candidates.find? fun k => !links.contains k).getD .null

/-- The key of a further edge beside `links`: a null key stands for a fresh one, and where edges are not
parallel all have the null key. -/
def edgeKey (key : Datum) (links : Links) : Datum :=
  if g.multi then
    match key with
    | .null => freshKey links
    | key => key
  else .null

/-- The edges to one target after one more with the attributes: a new one, or that with the same key, which
gets them as further attributes. -/
def link (key : Datum) (attributes : Attributes) (links : Links) : Links :=
  links.upsert (g.edgeKey key links) attributes (·.update attributes)

/-- Adds an edge and the ends that are not there, the source first. -/
def addEdge (source target key : Datum) (attributes : Attributes) : Except Fault Graph := do
  attributes.keys.forM (checkName g.edgeNames)
  checkNode source
  checkNode target
  key.requireHashable
  let link := g.link key attributes
  let join (targets : Table Datum Links) : Table Datum Links :=
    targets.upsert target (link {}) link
  let nodes := g.nodes.upsert source { targets := join {} } fun node =>
    { node with targets := join node.targets }
  { g with nodes }.addNode target {}

/-- Writes an attribute of a node that is there. -/
def setNodeAttribute (id name value : Datum) : Except Fault Graph := do
  id.requireHashable
  unless g.nodes.contains id do throw (.value (.absentKey id))
  name.requireHashable
  return { g with
    nodes := g.nodes.upsert id {} fun node =>
      { node with attributes := node.attributes.put name value } }

/-- Deletes an attribute of a node; both must be there. -/
def eraseNodeAttribute (id name : Datum) : Except Fault Graph := do
  id.requireHashable
  let some node := g.nodes.get? id | throw (.value (.absentKey id))
  name.requireHashable
  unless node.attributes.contains name do throw (.value (.absentKey name))
  return { g with
    nodes := g.nodes.upsert id {} fun node =>
      { node with attributes := node.attributes.erase name } }

/-- Removes a node and all edges at it. -/
def removeNode (id : Datum) : Except Fault Graph := do
  id.requireHashable
  unless g.nodes.contains id do throw .absentNode
  return { g with
    nodes := ⟨(g.nodes.erase id).entries.map fun (u, node) =>
      (u, { node with targets := node.targets.erase id })⟩ }

/-- Removes an edge, of parallel ones the one whose key came last. -/
def removeEdge (source target : Datum) : Except Fault Graph := do
  source.requireHashable
  let some node := g.nodes.get? source | throw .absentEdge
  target.requireHashable
  let some links := node.targets.get? target | throw .absentEdge
  let rest : Links := ⟨links.entries.dropLast⟩
  return { g with
    nodes := g.nodes.upsert source {} fun node =>
      { node with
        targets :=
          if rest.entries.isEmpty then node.targets.erase target
          else node.targets.put target rest } }

end Graph

end Petri
