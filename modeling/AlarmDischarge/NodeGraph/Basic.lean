import AlarmDischarge.Node
import AlarmDischarge.Order.FiniteSet

/-!
# `AlarmDischarge.NodeGraph.Basic`: finite directed graphs of nodes

Control flow and def-use chains are both directed graphs of program points. A graph is given by its
two sets alone, so graphs with the same nodes and edges are equal however they were built. Graphs in
storage (`DefUseGraph`) are in `NodeGraph.Indexed`, and control flow in maps (`Program`) is in
`Program.Maps`; the analyses see the sets of both.

Main definitions:

* `Edge`, `NodeGraph`: a set of nodes and a set of edges between them;
* `NodeGraph.addNode`, `NodeGraph.addEdge`: an edge brings its ends along (`add_node`, `add_edge`);
* `NodeGraph.preds`, `NodeGraph.succs`: the neighbours of a node (`predecessors`, `successors`);
* `NodeGraph.project`: the part of a graph inside a set of nodes (`project`).

Main statements: `NodeGraph.mem_preds`, `NodeGraph.mem_succs`.
-/

set_option autoImplicit false

namespace AlarmDischarge

open Std

/-- An edge from one node to another. -/
structure Edge where
  source : Node
  target : Node
deriving DecidableEq

namespace Edge

/-- Edges compare by source, then by target. -/
instance : Ord Edge := ⟨compareLex (compareOn source) (compareOn target)⟩

instance : TransOrd Edge :=
  inferInstanceAs (TransCmp (compareLex (compareOn source) (compareOn target)))

instance : LawfulEqOrd Edge where
  eq_of_compare {a b} h := by
    obtain ⟨hs, ht⟩ := Ordering.then_eq_eq.mp h
    cases a
    cases b
    exact congr (congrArg mk (LawfulEqOrd.eq_of_compare hs)) (LawfulEqOrd.eq_of_compare ht)

end Edge

/-- A finite directed graph: the ends of every edge are among the nodes. -/
structure NodeGraph where
  nodes : NodeSet
  edges : ExtTreeSet Edge
  closed : ∀ e ∈ edges, e.source ∈ nodes ∧ e.target ∈ nodes
deriving DecidableEq

namespace NodeGraph

/-- The graph without nodes. -/
def empty : NodeGraph := ⟨∅, ∅, by simp⟩

instance : EmptyCollection NodeGraph := ⟨empty⟩

/-- Adds a node. -/
def addNode (g : NodeGraph) (n : Node) : NodeGraph where
  nodes := g.nodes.insert n
  edges := g.edges
  closed e he := by simp [g.closed e he]

/-- Adds an edge and its ends. -/
def addEdge (g : NodeGraph) (source target : Node) : NodeGraph where
  nodes := (g.nodes.insert source).insert target
  edges := g.edges.insert ⟨source, target⟩
  closed e he := by
    rcases ExtTreeSet.mem_insert.mp he with h | h
    · rw [← LawfulEqOrd.eq_of_compare h]
      simp
    · simp [g.closed e h]

/-- The graph of given nodes and edges. -/
def ofLists (nodes : List Node) (edges : List (Node × Node)) : NodeGraph :=
  edges.foldl (fun g e => g.addEdge e.1 e.2) (nodes.foldl addNode ∅)

/-- The nodes with an edge to a node. -/
def preds (g : NodeGraph) (n : Node) : NodeSet :=
  .ofList ((g.edges.toList.filter (·.target == n)).map Edge.source)

/-- The nodes with an edge from a node. -/
def succs (g : NodeGraph) (n : Node) : NodeSet :=
  .ofList ((g.edges.toList.filter (·.source == n)).map Edge.target)

/-- The nodes of a graph that are in a set, and the edges between them. -/
def project (g : NodeGraph) (keep : NodeSet) : NodeGraph where
  nodes := g.nodes.filter keep.contains
  edges := g.edges.filter fun e => keep.contains e.source && keep.contains e.target
  closed e he := by
    simp only [FiniteSet.mem_filter, Bool.and_eq_true] at he ⊢
    exact ⟨⟨(g.closed e he.1).1, he.2.1⟩, (g.closed e he.1).2, he.2.2⟩

/-- A graph in written form: one line for each edge. -/
def text (g : NodeGraph) : String :=
  String.join (g.edges.toList.map fun e => e.source.text ++ " -> " ++ e.target.text ++ "\n")

/-! ### Neighbours -/

@[simp]
theorem mem_preds {g : NodeGraph} {m n : Node} : m ∈ g.preds n ↔ ⟨m, n⟩ ∈ g.edges := by
  simp only [preds, ExtTreeSet.mem_ofList, List.contains_iff_mem, List.mem_map, List.mem_filter,
    ExtTreeSet.mem_toList, beq_iff_eq]
  constructor
  · rintro ⟨⟨s, t⟩, ⟨h, rfl⟩, rfl⟩
    exact h
  · intro h
    exact ⟨⟨m, n⟩, ⟨h, rfl⟩, rfl⟩

@[simp]
theorem mem_succs {g : NodeGraph} {m n : Node} : n ∈ g.succs m ↔ ⟨m, n⟩ ∈ g.edges := by
  simp only [succs, ExtTreeSet.mem_ofList, List.contains_iff_mem, List.mem_map, List.mem_filter,
    ExtTreeSet.mem_toList, beq_iff_eq]
  constructor
  · rintro ⟨⟨s, t⟩, ⟨h, rfl⟩, rfl⟩
    exact h
  · intro h
    exact ⟨⟨m, n⟩, ⟨h, rfl⟩, rfl⟩

theorem preds_subset_nodes {g : NodeGraph} {m n : Node} (h : m ∈ g.preds n) : m ∈ g.nodes :=
  (g.closed _ (mem_preds.mp h)).1

theorem succs_subset_nodes {g : NodeGraph} {m n : Node} (h : n ∈ g.succs m) : n ∈ g.nodes :=
  (g.closed _ (mem_succs.mp h)).2

end NodeGraph

end AlarmDischarge
