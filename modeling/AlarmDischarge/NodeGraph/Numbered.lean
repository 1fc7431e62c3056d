import AlarmDischarge.NodeGraph.Basic

/-!
# `AlarmDischarge.NodeGraph.Numbered`: graphs whose nodes are numbered

A numbered graph remembers the order in which its nodes were first mentioned. The number of a node
is its place in that order, and the index that `add_node` returns; everything else about the graph is
the same whatever the order was.

Main definitions: `NodeGraph.Numbered`, `Numbered.number`, `Numbered.addNode`, `Numbered.addEdge`,
`Numbered.ofGraph`.
-/

set_option autoImplicit false

namespace AlarmDischarge.NodeGraph

open Std

/-- A graph with its nodes in the order of their first mention. -/
structure Numbered where
  graph : NodeGraph
  order : List Node
  nodup : order.Nodup
  mem_order : ∀ n, n ∈ order ↔ n ∈ graph.nodes

namespace Numbered

/-- The graph without nodes. -/
def empty : Numbered := ⟨.empty, [], by simp, by simp [NodeGraph.empty]⟩

/-- The place of a node in the order of first mention. -/
def number (g : Numbered) (n : Node) : Nat := g.order.idxOf n

/-- Adds a node; a new one takes the next number. -/
def addNode (g : Numbered) (n : Node) : Numbered :=
  if h : n ∈ g.graph.nodes then g
  else
    { graph := g.graph.addNode n
      order := g.order ++ [n]
      nodup := by
        refine List.nodup_append.mpr ⟨g.nodup, by simp, ?_⟩
        intro a ha b hb
        rw [List.mem_singleton.mp hb]
        rintro rfl
        exact h ((g.mem_order a).mp ha)
      mem_order := fun m => by
        simp only [List.mem_append, List.mem_singleton, g.mem_order, NodeGraph.addNode,
          ExtTreeSet.mem_insert, LawfulEqOrd.compare_eq_iff_eq]
        rw [or_comm, eq_comm] }

/-- After a node is added it is among the nodes. -/
theorem mem_addNode (g : Numbered) (n : Node) : n ∈ (g.addNode n).graph.nodes := by
  unfold addNode
  split
  · assumption
  · simp [NodeGraph.addNode]

theorem mem_addNode_of_mem {g : Numbered} {m n : Node} (h : m ∈ g.graph.nodes) :
    m ∈ (g.addNode n).graph.nodes := by
  unfold addNode
  split
  · exact h
  · simp [NodeGraph.addNode, h]

/-- Adds an edge; ends that are new are numbered, the source first. -/
def addEdge (g : Numbered) (source target : Node) : Numbered :=
  let g' := (g.addNode source).addNode target
  { graph := g'.graph.addEdge source target
    order := g'.order
    nodup := g'.nodup
    mem_order := fun m => by
      have hs : source ∈ g'.graph.nodes := mem_addNode_of_mem (mem_addNode g source)
      have ht : target ∈ g'.graph.nodes := mem_addNode _ target
      simp only [g'.mem_order, NodeGraph.addEdge, ExtTreeSet.mem_insert,
        LawfulEqOrd.compare_eq_iff_eq]
      constructor
      · intro h
        exact .inr (.inr h)
      · rintro (rfl | rfl | h)
        · exact ht
        · exact hs
        · exact h }

/-- A graph with its nodes numbered in node order. -/
def ofGraph (g : NodeGraph) : Numbered where
  graph := g
  order := g.nodes.toList
  nodup := FiniteSet.nodup_toList
  mem_order _ := ExtTreeSet.mem_toList

end Numbered

end AlarmDischarge.NodeGraph
