import AlarmDischarge.NodeGraph.Basic
import AlarmDischarge.NodeGraph.Store
import AlarmDischarge.Order.Sorting
import Std.Data.ExtTreeMap

/-!
# `AlarmDischarge.NodeGraph.Indexed`: graphs in storage

A def-use graph (`DefUseGraph`) is storage for nodes and edges, and beside it a map from each node
to its index. The two have to stay in step: a node is stored when it is first mentioned and found
through the map from then on, and an edge is stored only if it is not found. Queries collect what
the storage holds and sort it.

Main definitions:

* `IndexedGraph`, `IndexedGraph.addNode`, `IndexedGraph.addEdge`: `add_node` returns the index of
  the node, `add_edge` adds the ends that are missing, the source first;
* `IndexedGraph.nodes`, `IndexedGraph.edges`, `IndexedGraph.preds`, `IndexedGraph.succs`: the
  listings `nodes`, `edges`, `predecessors` and `successors`;
* `IndexedGraph.project`: the part inside a set, built anew;
* `IndexedGraph.contents`: the sets of nodes and edges, which is all that the analyses look at.
-/

set_option autoImplicit false

namespace AlarmDischarge

open Std

/-- A graph in storage, and the index of each of its nodes. -/
structure IndexedGraph (γ : Type) where
  store : γ
  index : ExtTreeMap Node Nat

namespace IndexedGraph

variable {γ : Type} [GraphStore γ]

/-- The graph without nodes. -/
def empty : IndexedGraph γ := ⟨GraphStore.empty, ∅⟩

/-- Adds a node unless it is known, and returns its index. -/
def addNode (g : IndexedGraph γ) (n : Node) : Nat × IndexedGraph γ :=
  match g.index[n]? with
  | some i => (i, g)
  | none =>
    let (i, store) := GraphStore.addNode g.store n
    (i, ⟨store, g.index.insert n i⟩)

/-- Adds an edge unless it is known, and before it the ends that are not. -/
def addEdge (g : IndexedGraph γ) (source target : Node) : IndexedGraph γ :=
  let (i, g) := g.addNode source
  let (j, g) := g.addNode target
  if (GraphStore.findEdge g.store i j).isNone then
    { g with store := GraphStore.addEdge g.store i j }
  else g

/-- Whether a node is known. -/
def contains (g : IndexedGraph γ) (n : Node) : Bool := g.index.contains n

/-- The neighbours of a node in a direction, in order. A node that is not known has none. -/
def neighbors (g : IndexedGraph γ) (d : Direction) (n : Node) : List Node :=
  match g.index[n]? with
  | none => []
  | some i =>
    Listing.dropRepeats (Listing.sort
      ((GraphStore.neighbors g.store i d).filterMap (GraphStore.nodeWeight g.store)))

/-- The nodes with an edge to a node. -/
def preds (g : IndexedGraph γ) : Node → List Node := g.neighbors .incoming

/-- The nodes with an edge from a node. -/
def succs (g : IndexedGraph γ) : Node → List Node := g.neighbors .outgoing

/-- The nodes, in order. -/
def nodes (g : IndexedGraph γ) : List Node := Listing.sort (GraphStore.nodeWeights g.store)

/-- The edge between the nodes at two indices. -/
def edgeAt? (g : IndexedGraph γ) (arc : Nat × Nat) : Option Edge := do
  return ⟨← GraphStore.nodeWeight g.store arc.1, ← GraphStore.nodeWeight g.store arc.2⟩

/-- The edges, in order. -/
def edges (g : IndexedGraph γ) : List Edge :=
  Listing.sort ((GraphStore.arcs g.store).filterMap g.edgeAt?)

/-- How many nodes there are. -/
def nodeCount (g : IndexedGraph γ) : Nat := GraphStore.nodeCount g.store

/-- How many edges there are. -/
def edgeCount (g : IndexedGraph γ) : Nat := GraphStore.edgeCount g.store

/-- The nodes of a graph that are in a set and the edges between them, added to an empty graph. -/
def project (g : IndexedGraph γ) (keep : NodeSet) : IndexedGraph γ :=
  let kept := (keep.toList.filter g.contains).foldl (fun h n => (h.addNode n).2) empty
  g.edges.foldl (fun h e =>
    if keep.contains e.source && keep.contains e.target then h.addEdge e.source e.target else h) kept

/-- The sets of nodes and edges that a graph lists. -/
def contents (g : IndexedGraph γ) : NodeGraph :=
  .ofLists g.nodes (g.edges.map fun e => (e.source, e.target))

/-- A graph in written form: one line for each edge. -/
def text (g : IndexedGraph γ) : String :=
  String.join (g.edges.map fun e => e.source.text ++ " -> " ++ e.target.text ++ "\n")

end IndexedGraph

end AlarmDischarge
