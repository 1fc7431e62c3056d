import AlarmDischarge.Proofs.FiniteSet
import AlarmDischarge.Proofs.Slice
import Mathlib.Data.List.TakeWhile

/-!
# `AlarmDischarge.Proofs.NumberedGraph`: what numbers mentions hand out

A graph is built by mentioning nodes and edges, in any order and with any repetitions. A numbered
graph keeps them as sets and hands out a number at the first mention of a node (`add_node`). This
module says what any sequence of mentions makes of it, and where the numbers are found again:

* `Mention`, `Numbered.ofMentions`: mentions, and the graph that a sequence of them builds;
* `mem_nodes_ofMentions`, `mem_edges_ofMentions`: it holds what was mentioned, and nothing else;
* `number_addNode_ofMentions`: the number of a node is how many other nodes were mentioned before it;
* `ofGraph_eq_foldl`: adding the nodes of a graph and then its edges numbers the nodes in their order;
* `getElem?_order_eq_some`: numbers are places in the order of the nodes.
-/

set_option autoImplicit false

namespace AlarmDischarge.NodeGraph

open Std

/-- A mention of a node by itself, or of an edge. -/
inductive Mention where
  | node (n : Node)
  | edge (source target : Node)
deriving DecidableEq

/-- The nodes that are mentioned: an edge mentions its source and then its target. -/
def Mention.nodes : Mention → List Node
  | node n => [n]
  | edge source target => [source, target]

/-- The edges that are mentioned. -/
def Mention.edges : Mention → List Edge
  | node _ => []
  | edge source target => [⟨source, target⟩]

namespace Numbered

/-- Adds what is mentioned. -/
def mention (g : Numbered) : Mention → Numbered
  | .node n => g.addNode n
  | .edge source target => g.addEdge source target

/-- The graph that a sequence of mentions builds. -/
def ofMentions (ms : List Mention) : Numbered := ms.foldl mention empty

/-! ### Nodes and edges -/

theorem graph_addEdge (g : Numbered) (source target : Node) :
    (g.addEdge source target).graph = g.graph.addEdge source target := by
  show ((g.addNode source).addNode target).graph.addEdge source target = _
  rw [graph_addNode, graph_addNode]
  refine ext_mem (fun n => ?_) (fun e => Iff.rfl)
  -- The ends are nodes already when the edge is added.
  simp only [mem_nodes_addEdge, mem_nodes_addNode]
  constructor
  · rintro (h | h | h)
    · exact .inl h
    · exact .inr (.inl h)
    · exact h
  · intro h
    exact .inr (.inr h)

theorem mem_nodes_mention {g : Numbered} {m : Mention} {n : Node} :
    n ∈ (g.mention m).graph.nodes ↔ n ∈ m.nodes ∨ n ∈ g.graph.nodes := by
  cases m with
  | node k =>
    show n ∈ (g.addNode k).graph.nodes ↔ _
    rw [graph_addNode, mem_nodes_addNode, Mention.nodes, List.mem_singleton]
  | edge source target =>
    show n ∈ (g.addEdge source target).graph.nodes ↔ _
    rw [graph_addEdge, mem_nodes_addEdge, Mention.nodes, List.mem_pair, or_left_comm, or_assoc]

theorem mem_edges_mention {g : Numbered} {m : Mention} {e : Edge} :
    e ∈ (g.mention m).graph.edges ↔ e ∈ m.edges ∨ e ∈ g.graph.edges := by
  cases m with
  | node k =>
    show e ∈ (g.addNode k).graph.edges ↔ _
    rw [graph_addNode, Mention.edges]
    exact (or_iff_right List.not_mem_nil).symm
  | edge source target =>
    show e ∈ (g.addEdge source target).graph.edges ↔ _
    rw [graph_addEdge, mem_edges_addEdge, Mention.edges, List.mem_singleton]

/-- A graph has the nodes that were mentioned. -/
theorem mem_nodes_ofMentions {ms : List Mention} {n : Node} :
    n ∈ (ofMentions ms).graph.nodes ↔ n ∈ ms.flatMap Mention.nodes := by
  rw [List.mem_flatMap]
  refine (FiniteSet.holds_foldl_iff (P := fun g => n ∈ g.graph.nodes) (fun g m => ?_) empty ms).trans
    (or_iff_left ExtTreeSet.not_mem_empty)
  exact mem_nodes_mention

/-- A graph has the edges that were mentioned. -/
theorem mem_edges_ofMentions {ms : List Mention} {e : Edge} :
    e ∈ (ofMentions ms).graph.edges ↔ e ∈ ms.flatMap Mention.edges := by
  rw [List.mem_flatMap]
  refine (FiniteSet.holds_foldl_iff (P := fun g => e ∈ g.graph.edges) (fun g m => ?_) empty ms).trans
    (or_iff_left ExtTreeSet.not_mem_empty)
  exact mem_edges_mention

/-! ### Numbers -/

theorem addNode_of_mem {g : Numbered} {n : Node} (h : n ∈ g.graph.nodes) : g.addNode n = g :=
  dif_pos h

theorem order_addNode_of_not_mem {g : Numbered} {n : Node} (h : n ∉ g.graph.nodes) :
    (g.addNode n).order = g.order ++ [n] := by
  unfold addNode
  rw [dif_neg h]

/-- What numbers are handed out next depends on those handed out so far and not on the edges. -/
theorem order_addNode_congr {g h : Numbered} (heq : g.order = h.order) (n : Node) :
    (g.addNode n).order = (h.addNode n).order := by
  by_cases hn : n ∈ g.graph.nodes
  · have hn' : n ∈ h.graph.nodes := by rwa [← h.mem_order, ← heq, g.mem_order]
    rw [addNode_of_mem hn, addNode_of_mem hn', heq]
  · have hn' : n ∉ h.graph.nodes := by rwa [← h.mem_order, ← heq, g.mem_order]
    rw [order_addNode_of_not_mem hn, order_addNode_of_not_mem hn', heq]

theorem order_foldl_addNode_congr {g h : Numbered} (heq : g.order = h.order) (ns : List Node) :
    (ns.foldl addNode g).order = (ns.foldl addNode h).order := by
  induction ns generalizing g h with
  | nil => exact heq
  | cons n ns ih => exact ih (order_addNode_congr heq n)

/-- As far as numbers go, an edge is the mention of its source and of its target. -/
theorem order_mention (g : Numbered) (m : Mention) :
    (g.mention m).order = (m.nodes.foldl addNode g).order := by
  cases m with
  | node n => rfl
  | edge source target => rfl

/-- So a sequence of mentions numbers the nodes as adding them one after the other does. -/
theorem order_foldl_mention (g : Numbered) (ms : List Mention) :
    (ms.foldl mention g).order = ((ms.flatMap Mention.nodes).foldl addNode g).order := by
  induction ms generalizing g with
  | nil => rfl
  | cons m ms ih =>
    rw [List.foldl_cons, ih, List.flatMap_cons, List.foldl_append]
    exact order_foldl_addNode_congr (order_mention g m) _

theorem graph_foldl_addNode (g : Numbered) (ns : List Node) :
    (ns.foldl addNode g).graph = ns.foldl NodeGraph.addNode g.graph := by
  induction ns generalizing g with
  | nil => rfl
  | cons n ns ih => rw [List.foldl_cons, ih, graph_addNode, List.foldl_cons]

/-- A new node takes the next number. -/
theorem number_addNode_of_not_mem {g : Numbered} {n : Node} (h : n ∉ g.graph.nodes) :
    (g.addNode n).number n = g.graph.nodes.size := by
  have hn : n ∉ g.order := by rwa [g.mem_order]
  rw [number, order_addNode_of_not_mem h, List.idxOf_append_of_notMem hn, List.idxOf_cons_self,
    Nat.add_zero, length_order]

/-- A node that has a number keeps it. -/
theorem number_foldl_addNode {g : Numbered} {n : Node} (h : n ∈ g.graph.nodes) (ns : List Node) :
    (ns.foldl addNode g).number n = g.number n := by
  induction ns generalizing g with
  | nil => rfl
  | cons m ns ih =>
    rw [List.foldl_cons, ih (mem_addNode_of_mem h)]
    by_cases hm : m ∈ g.graph.nodes
    · rw [addNode_of_mem hm]
    -- A new node is numbered behind all that have a number.
    · rw [number, order_addNode_of_not_mem hm, List.idxOf_append_of_mem ((g.mem_order n).mpr h)]
      rfl

/-- The number of a node is how many different nodes stand before the first place at which it is
named. The list is cut there: what comes before does not name the node, and what comes behind leaves
its number alone. -/
theorem number_foldl_addNode_empty {ns : List Node} {n : Node} (h : n ∈ ns) :
    (ns.foldl addNode empty).number n = (ns.takeWhile (· != n)).dedup.length := by
  obtain ⟨before, after, rfl, hbefore⟩ := List.eq_append_cons_of_mem h
  have htake : (before ++ n :: after).takeWhile (· != n) = before := by
    rw [List.takeWhile_append_of_pos, List.takeWhile_cons_of_neg (by simp), List.append_nil]
    intro m hm
    exact bne_iff_ne.mpr fun heq => hbefore (heq ▸ hm)
  have hmem : ∀ m, m ∈ (before.foldl addNode empty).graph.nodes ↔ m ∈ before := by
    intro m
    rw [graph_foldl_addNode, mem_nodes_foldl_addNode]
    exact or_iff_left ExtTreeSet.not_mem_empty
  have hnew : n ∉ (before.foldl addNode empty).graph.nodes := fun hn => hbefore ((hmem n).mp hn)
  rw [htake, List.foldl_append, List.foldl_cons, number_foldl_addNode (mem_addNode _ n),
    number_addNode_of_not_mem hnew, FiniteSet.size_eq_length_dedup hmem]

/-- Adding a node, known or new, gives it the number of its first mention: as many other nodes were
mentioned before. -/
theorem number_addNode_ofMentions (ms : List Mention) (n : Node) :
    ((ofMentions ms).addNode n).number n =
      ((ms.flatMap Mention.nodes).takeWhile (· != n)).dedup.length := by
  by_cases hn : n ∈ ms.flatMap Mention.nodes
  · rw [addNode_of_mem (mem_nodes_ofMentions.mpr hn), number, ofMentions, order_foldl_mention]
    exact number_foldl_addNode_empty hn
  -- A node that was never mentioned comes behind all those that were.
  · have hall : (ms.flatMap Mention.nodes).takeWhile (· != n) = ms.flatMap Mention.nodes := by
      refine List.takeWhile_eq_self_iff.mpr fun m hm => ?_
      exact bne_iff_ne.mpr fun heq => hn (heq ▸ hm)
    have hnew : n ∉ (ofMentions ms).graph.nodes := fun h => hn (mem_nodes_ofMentions.mp h)
    rw [number_addNode_of_not_mem hnew, hall]
    exact FiniteSet.size_eq_length_dedup fun m => mem_nodes_ofMentions

/-- Numbered graphs with the same nodes, edges and numbers are equal. -/
theorem ext_order {g h : Numbered} (hgraph : g.graph = h.graph) (horder : g.order = h.order) :
    g = h := by
  cases g
  cases h
  cases hgraph
  cases horder
  rfl

/-! ### Graphs built from their listings -/

/-- New nodes are numbered in the order in which they are added. -/
theorem order_foldl_addNode {g : Numbered} {ns : List Node} (h : (g.order ++ ns).Nodup) :
    (ns.foldl addNode g).order = g.order ++ ns := by
  induction ns generalizing g with
  | nil => exact (List.append_nil _).symm
  | cons n ns ih =>
    have hn : n ∉ g.graph.nodes := by
      rw [← g.mem_order]
      intro hmem
      exact (List.nodup_append.mp h).2.2 n hmem n List.mem_cons_self rfl
    have horder := order_addNode_of_not_mem hn
    rw [List.foldl_cons, ih, horder, List.append_assoc, List.singleton_append]
    rw [horder, List.append_assoc, List.singleton_append]
    exact h

/-- An edge between known nodes is nothing to number. -/
theorem order_addEdge_of_mem {g : Numbered} {source target : Node} (hs : source ∈ g.graph.nodes)
    (ht : target ∈ g.graph.nodes) : (g.addEdge source target).order = g.order := by
  show ((g.addNode source).addNode target).order = g.order
  rw [addNode_of_mem hs, addNode_of_mem ht]

theorem order_foldl_addEdge {g : Numbered} {es : List Edge}
    (h : ∀ e ∈ es, e.source ∈ g.graph.nodes ∧ e.target ∈ g.graph.nodes) :
    (es.foldl (fun b e => b.addEdge e.source e.target) g).order = g.order := by
  induction es generalizing g with
  | nil => rfl
  | cons e es ih =>
    obtain ⟨hs, ht⟩ := h e List.mem_cons_self
    rw [List.foldl_cons, ih, order_addEdge_of_mem hs ht]
    intro e' he'
    obtain ⟨hs', ht'⟩ := h e' (List.mem_cons_of_mem e he')
    rw [graph_addEdge, mem_nodes_addEdge, mem_nodes_addEdge]
    exact ⟨.inr (.inr hs'), .inr (.inr ht')⟩

theorem graph_foldl_addEdge (g : Numbered) (es : List Edge) :
    (es.foldl (fun b e => b.addEdge e.source e.target) g).graph =
      (es.map fun e => (e.source, e.target)).foldl (fun h e => h.addEdge e.1 e.2) g.graph := by
  induction es generalizing g with
  | nil => rfl
  | cons e es ih => rw [List.foldl_cons, ih, graph_addEdge, List.map_cons, List.foldl_cons]

/-- The listings of a graph build the graph. -/
theorem ofLists_toList (g : NodeGraph) :
    .ofLists g.nodes.toList (g.edges.toList.map fun e => (e.source, e.target)) = g := by
  refine ofLists_eq (fun n => ExtTreeSet.mem_toList) fun e => ?_
  rw [List.mem_map, ← ExtTreeSet.mem_toList]
  constructor
  · rintro ⟨e', he', heq⟩
    cases e
    cases e'
    cases heq
    exact he'
  · intro he
    exact ⟨e, he, rfl⟩

/-- Adding the nodes of a graph one after the other, and then its edges, numbers the nodes in their
order. -/
theorem ofGraph_eq_foldl (g : NodeGraph) :
    ofGraph g = g.edges.toList.foldl (fun b e => b.addEdge e.source e.target)
      (g.nodes.toList.foldl addNode empty) := by
  have hnodes : (g.nodes.toList.foldl addNode empty).graph = g.nodes.toList.foldl .addNode ∅ :=
    graph_foldl_addNode empty _
  have hmem : ∀ n, n ∈ (g.nodes.toList.foldl addNode empty).graph.nodes ↔ n ∈ g.nodes := by
    intro n
    rw [hnodes, mem_nodes_foldl_addNode, ExtTreeSet.mem_toList]
    exact or_iff_left ExtTreeSet.not_mem_empty
  refine ext_order ?_ ?_
  · rw [graph_foldl_addEdge, hnodes]
    exact (ofLists_toList g).symm
  · rw [order_foldl_addEdge, order_foldl_addNode]
    · rfl
    · exact FiniteSet.nodup_toList
    · intro e he
      rw [hmem, hmem]
      exact g.closed e (ExtTreeSet.mem_toList.mp he)

/-! ### Places -/

/-- A place in the order belongs to the node that has it as its number. -/
theorem getElem?_order_eq_some {g : Numbered} {i : Nat} {n : Node} :
    g.order[i]? = some n ↔ n ∈ g.graph.nodes ∧ i = g.number n := by
  constructor
  · intro h
    have hn : n ∈ g.order := List.mem_of_getElem? h
    refine ⟨(g.mem_order n).mp hn, ?_⟩
    -- The order has no repetitions, so the first place of the node is the only one.
    have hlt : i < g.order.length := (List.getElem?_eq_some_iff.mp h).1
    refine (List.getElem?_inj hlt g.nodup).mp ?_
    rw [h, number, List.getElem?_idxOf hn]
  · rintro ⟨hn, rfl⟩
    exact List.getElem?_idxOf ((g.mem_order n).mpr hn)

theorem number_lt_length {g : Numbered} {n : Node} (h : n ∈ g.graph.nodes) :
    g.number n < g.order.length :=
  List.idxOf_lt_length_iff.mpr ((g.mem_order n).mpr h)

/-- Different nodes have different numbers. -/
theorem number_inj {g : Numbered} {m n : Node} (hm : m ∈ g.graph.nodes) (hn : n ∈ g.graph.nodes)
    (h : g.number m = g.number n) : m = n := by
  have hplace : g.order[g.number n]? = some m := getElem?_order_eq_some.mpr ⟨hm, h.symm⟩
  rw [getElem?_order_eq_some.mpr ⟨hn, rfl⟩] at hplace
  exact (Option.some.inj hplace).symm

theorem number_addNode_of_mem {g : Numbered} {m : Node} (h : m ∈ g.graph.nodes) (n : Node) :
    (g.addNode n).number m = g.number m :=
  number_foldl_addNode h [n]

end Numbered

end AlarmDischarge.NodeGraph
