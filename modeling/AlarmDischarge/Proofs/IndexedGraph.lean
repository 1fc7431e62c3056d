import AlarmDischarge.Proofs.NumberedGraph
import AlarmDischarge.Proofs.Sorting
import AlarmDischarge.Propagation

/-!
# `AlarmDischarge.Proofs.IndexedGraph`: graphs do not remember how they were built

A graph in storage (`DefUseGraph`) keeps its nodes twice, in the storage and in the map of their
indices, and its edges under the indices of their ends. `Refines` says that the two are in step: they
stand for one numbered graph, that is for a set of nodes, a set of edges and the order in which the
nodes were first mentioned. Of the storage only the laws of `LawfulGraphStore` are used.

* `Refines.addNode`, `Refines.addEdge`: `add_node` and `add_edge` keep them in step, and the index
  that is returned is the number of the node;
* `Refines.nodes`, `Refines.edges`, `Refines.preds`, `Refines.succs`: so each query lists a set;
* `Refines.project_eq`: the part inside a set (`project`) is built from the sets alone;
* `Refines.slice`: the slice stands for the slice of the numbered graph;
* `refines_ofMentions`: any sequence of mentions leaves them in step;
* `graph_records_mentions_only`: so all listings and counts are those of the sets of mentioned nodes
  and edges, and no query but the index of a node tells two sequences with the same sets apart.
-/

set_option autoImplicit false

namespace AlarmDischarge.IndexedGraph

open Std NodeGraph

variable {γ : Type} [GraphStore γ]

/-- A graph in storage stands for a numbered graph. -/
structure Refines (g : IndexedGraph γ) (a : Numbered) : Prop where
  /-- nodes are stored in the order of their numbers -/
  nodeWeights : GraphStore.nodeWeights g.store = a.order
  /-- the map has the number of every node, and nothing else -/
  index : ∀ n, g.index[n]? = if n ∈ a.graph.nodes then some (a.number n) else none
  /-- no edge is stored twice -/
  nodup_arcs : (GraphStore.arcs g.store).Nodup
  /-- what is stored are the edges, by the numbers of their ends -/
  mem_arcs : ∀ i j, (i, j) ∈ GraphStore.arcs g.store ↔
    ∃ e ∈ a.graph.edges, i = a.number e.source ∧ j = a.number e.target

variable {g : IndexedGraph γ} {a : Numbered}

namespace Refines

theorem index_of_mem (h : g.Refines a) {n : Node} (hn : n ∈ a.graph.nodes) :
    g.index[n]? = some (a.number n) := by
  rw [h.index, if_pos hn]

theorem index_of_not_mem (h : g.Refines a) {n : Node} (hn : n ∉ a.graph.nodes) :
    g.index[n]? = none := by
  rw [h.index, if_neg hn]

/-- An edge is stored under the numbers of its ends. -/
theorem mem_arcs_number (h : g.Refines a) {m n : Node} (hm : m ∈ a.graph.nodes)
    (hn : n ∈ a.graph.nodes) :
    (a.number m, a.number n) ∈ GraphStore.arcs g.store ↔ ⟨m, n⟩ ∈ a.graph.edges := by
  rw [h.mem_arcs]
  constructor
  · rintro ⟨⟨p, q⟩, he, hp, hq⟩
    rw [Numbered.number_inj hm (a.graph.closed _ he).1 hp,
      Numbered.number_inj hn (a.graph.closed _ he).2 hq]
    exact he
  · intro he
    exact ⟨⟨m, n⟩, he, rfl, rfl⟩

theorem contains_iff (h : g.Refines a) {n : Node} : g.contains n = true ↔ n ∈ a.graph.nodes := by
  rw [IndexedGraph.contains, ExtTreeMap.contains_eq_isSome_getElem?, h.index]
  by_cases hn : n ∈ a.graph.nodes
  · rw [if_pos hn]
    exact iff_of_true rfl hn
  · rw [if_neg hn]
    exact iff_of_false Bool.false_ne_true hn

theorem nodes (h : g.Refines a) : g.nodes = a.graph.nodes.toList := by
  unfold IndexedGraph.nodes
  rw [h.nodeWeights]
  -- No node is stored twice, so that sorting alone gives a strictly increasing listing.
  refine Listing.eq_toList_of_increasing (Listing.increasing_sort a.nodup) fun n => ?_
  rw [Listing.mem_sort, a.mem_order]

theorem neighbors_of_not_mem (h : g.Refines a) {n : Node} (hn : n ∉ a.graph.nodes) (d : Direction) :
    g.neighbors d n = [] := by
  unfold IndexedGraph.neighbors
  rw [h.index_of_not_mem hn]

end Refines

theorem increasing_neighbors (g : IndexedGraph γ) (d : Direction) (n : Node) :
    Listing.Increasing (g.neighbors d n) := by
  unfold neighbors
  split
  · exact List.Pairwise.nil
  · exact Listing.increasing_dropRepeats (Listing.pairwise_sort _)

/-! ### Adding nodes and edges -/

variable [LawfulGraphStore γ]

open LawfulGraphStore

theorem refines_empty : (empty : IndexedGraph γ).Refines Numbered.empty where
  nodeWeights := nodeWeights_empty
  index n := by
    have hn : n ∉ Numbered.empty.graph.nodes := ExtTreeSet.not_mem_empty
    rw [if_neg hn]
    exact ExtTreeMap.getElem?_empty
  nodup_arcs := by
    show (GraphStore.arcs (GraphStore.empty : γ)).Nodup
    rw [arcs_empty]
    exact List.nodup_nil
  mem_arcs i j := by
    show (i, j) ∈ GraphStore.arcs (GraphStore.empty : γ) ↔ _
    rw [arcs_empty]
    refine iff_of_false List.not_mem_nil ?_
    rintro ⟨e, he, -⟩
    exact ExtTreeSet.not_mem_empty he

namespace Refines

theorem nodeCount (h : g.Refines a) : g.nodeCount = a.graph.nodes.size := by
  rw [IndexedGraph.nodeCount, nodeCount_eq, h.nodeWeights, Numbered.length_order]

/-- Adding a node returns its number, whether it is new or not. -/
theorem addNode (h : g.Refines a) (n : Node) :
    (g.addNode n).1 = (a.addNode n).number n ∧ (g.addNode n).2.Refines (a.addNode n) := by
  -- A node that is known is found through the map, and a new one takes the next index.
  by_cases hn : n ∈ a.graph.nodes
  · have hadd : g.addNode n = (a.number n, g) := by
      unfold IndexedGraph.addNode
      rw [h.index_of_mem hn]
    rw [hadd, Numbered.addNode_of_mem hn]
    exact ⟨rfl, h⟩
  · have hadd : g.addNode n = (g.nodeCount,
        ⟨(GraphStore.addNode g.store n).2, g.index.insert n g.nodeCount⟩) := by
      unfold IndexedGraph.addNode IndexedGraph.nodeCount
      rw [h.index_of_not_mem hn, ← index_addNode]
    have hnumber : (a.addNode n).number n = g.nodeCount := by
      rw [Numbered.number_addNode_of_not_mem hn, h.nodeCount]
    rw [hadd]
    refine ⟨hnumber.symm, ?_, ?_, ?_, ?_⟩
    · show GraphStore.nodeWeights (GraphStore.addNode g.store n).2 = _
      rw [nodeWeights_addNode, h.nodeWeights, Numbered.order_addNode_of_not_mem hn]
    · intro m
      show (g.index.insert n g.nodeCount)[m]? = _
      rw [FiniteSet.getElem?_insert_eq_ite, h.index, Numbered.graph_addNode]
      by_cases hm : m = n
      · rw [if_pos hm, if_pos (mem_nodes_addNode.mpr (.inl hm)), hm, hnumber]
      · rw [if_neg hm]
        by_cases hmem : m ∈ a.graph.nodes
        · rw [if_pos hmem, if_pos (mem_nodes_addNode.mpr (.inr hmem)),
            Numbered.number_addNode_of_mem hmem]
        · rw [if_neg hmem, if_neg fun hadd => (mem_nodes_addNode.mp hadd).elim hm hmem]
    · show (GraphStore.arcs (GraphStore.addNode g.store n).2).Nodup
      rw [arcs_addNode]
      exact h.nodup_arcs
    · intro i j
      show (i, j) ∈ GraphStore.arcs (GraphStore.addNode g.store n).2 ↔ _
      rw [arcs_addNode, h.mem_arcs, Numbered.graph_addNode]
      -- The ends of the edges were known before and keep their numbers.
      refine exists_congr fun e => and_congr_right fun he => ?_
      rw [Numbered.number_addNode_of_mem (a.graph.closed e he).1,
        Numbered.number_addNode_of_mem (a.graph.closed e he).2]

/-- An edge between two known nodes is stored unless it is found. -/
theorem storeEdge (h : g.Refines a) {m n : Node} (hm : m ∈ a.graph.nodes) (hn : n ∈ a.graph.nodes)
    {b : Numbered} (horder : b.order = a.order) (hgraph : b.graph = a.graph.addEdge m n) :
    IndexedGraph.Refines
      (if (GraphStore.findEdge g.store (a.number m) (a.number n)).isNone then
        { g with store := GraphStore.addEdge g.store (a.number m) (a.number n) }
      else g) b := by
  have hnumber : ∀ k, b.number k = a.number k := fun k => congrArg (List.idxOf k) horder
  have hnodes : ∀ k, k ∈ b.graph.nodes ↔ k ∈ a.graph.nodes := by
    intro k
    rw [← b.mem_order, horder, a.mem_order]
  have hindex : ∀ k, g.index[k]? = if k ∈ b.graph.nodes then some (b.number k) else none := by
    intro k
    rw [h.index, hnumber]
    simp only [hnodes]
  have hfind := isSome_findEdge g.store (a.number m) (a.number n)
  by_cases hfound : (a.number m, a.number n) ∈ GraphStore.arcs g.store
  · -- The edge is known, so that there is nothing to add in the numbered graph either.
    have hsame : b = a := by
      refine Numbered.ext_order ?_ horder
      refine ext_mem hnodes fun e => ?_
      rw [hgraph, mem_edges_addEdge, or_iff_right_of_imp]
      rintro rfl
      exact (h.mem_arcs_number hm hn).mp hfound
    have hsome : ¬(GraphStore.findEdge g.store (a.number m) (a.number n)).isNone = true := by
      rw [Option.isNone_iff_eq_none]
      exact Option.isSome_iff_ne_none.mp (hfind.mpr hfound)
    rw [if_neg hsome, hsame]
    exact h
  · have hnone : (GraphStore.findEdge g.store (a.number m) (a.number n)).isNone = true := by
      rw [Option.isNone_iff_eq_none, ← Option.not_isSome_iff_eq_none, hfind]
      exact hfound
    have hlt : ∀ {k}, k ∈ a.graph.nodes → a.number k < GraphStore.nodeCount g.store := by
      intro k hk
      rw [nodeCount_eq, h.nodeWeights]
      exact Numbered.number_lt_length hk
    rw [if_pos hnone]
    refine ⟨?_, hindex, ?_, ?_⟩
    · show GraphStore.nodeWeights (GraphStore.addEdge g.store _ _) = _
      rw [nodeWeights_addEdge _ _ _ (hlt hm) (hlt hn), h.nodeWeights, horder]
    · show (GraphStore.arcs (GraphStore.addEdge g.store _ _)).Nodup
      rw [arcs_addEdge _ _ _ (hlt hm) (hlt hn), ← List.concat_eq_append]
      exact h.nodup_arcs.concat hfound
    · intro i j
      show (i, j) ∈ GraphStore.arcs (GraphStore.addEdge g.store _ _) ↔ _
      rw [arcs_addEdge _ _ _ (hlt hm) (hlt hn), List.mem_append, List.mem_singleton, h.mem_arcs,
        hgraph]
      simp only [hnumber, mem_edges_addEdge, or_and_right, exists_or, exists_eq_left, Prod.mk.injEq]
      exact or_comm

/-- Adding an edge adds its ends first, the source before the target. -/
theorem addEdge (h : g.Refines a) (source target : Node) :
    (g.addEdge source target).Refines (a.addEdge source target) := by
  obtain ⟨hi, hsource⟩ := h.addNode source
  obtain ⟨hj, htarget⟩ := hsource.addNode target
  have hs : source ∈ (a.addNode source).graph.nodes := Numbered.mem_addNode a source
  -- The source keeps its index when the target is added behind it.
  rw [← Numbered.number_addNode_of_mem hs target] at hi
  show IndexedGraph.Refines
    (if (GraphStore.findEdge ((g.addNode source).2.addNode target).2.store (g.addNode source).1
        ((g.addNode source).2.addNode target).1).isNone then
      { ((g.addNode source).2.addNode target).2 with
        store := GraphStore.addEdge ((g.addNode source).2.addNode target).2.store
          (g.addNode source).1 ((g.addNode source).2.addNode target).1 }
    else ((g.addNode source).2.addNode target).2) _
  rw [hi, hj]
  exact htarget.storeEdge (Numbered.mem_addNode_of_mem hs) (Numbered.mem_addNode _ target) rfl rfl

/-! ### Queries -/

theorem nodeWeight_eq_some (h : g.Refines a) {i : Nat} {n : Node} :
    GraphStore.nodeWeight g.store i = some n ↔ n ∈ a.graph.nodes ∧ i = a.number n := by
  rw [nodeWeight_eq, h.nodeWeights]
  exact Numbered.getElem?_order_eq_some

theorem edgeAt?_eq_some (h : g.Refines a) {arc : Nat × Nat} {e : Edge} :
    g.edgeAt? arc = some e ↔ (e.source ∈ a.graph.nodes ∧ e.target ∈ a.graph.nodes) ∧
      arc = (a.number e.source, a.number e.target) := by
  unfold IndexedGraph.edgeAt?
  simp only [Option.bind_eq_bind, Option.bind_eq_some_iff, h.nodeWeight_eq_some, Option.pure_def,
    Option.some.injEq]
  constructor
  · rintro ⟨m, ⟨hm, hi⟩, n, ⟨hn, hj⟩, rfl⟩
    exact ⟨⟨hm, hn⟩, Prod.ext hi hj⟩
  · rintro ⟨⟨hm, hn⟩, rfl⟩
    exact ⟨e.source, ⟨hm, rfl⟩, e.target, ⟨hn, rfl⟩, rfl⟩

theorem mem_filterMap_edgeAt? (h : g.Refines a) {e : Edge} :
    e ∈ (GraphStore.arcs g.store).filterMap g.edgeAt? ↔ e ∈ a.graph.edges := by
  rw [List.mem_filterMap]
  constructor
  · rintro ⟨arc, harc, he⟩
    obtain ⟨⟨hs, ht⟩, rfl⟩ := h.edgeAt?_eq_some.mp he
    exact (h.mem_arcs_number hs ht).mp harc
  · intro he
    obtain ⟨hs, ht⟩ := a.graph.closed e he
    exact ⟨_, (h.mem_arcs_number hs ht).mpr he, h.edgeAt?_eq_some.mpr ⟨⟨hs, ht⟩, rfl⟩⟩

theorem nodup_filterMap_edgeAt? (h : g.Refines a) :
    ((GraphStore.arcs g.store).filterMap g.edgeAt?).Nodup := by
  refine h.nodup_arcs.filterMap fun arc arc' e he he' => ?_
  rw [(h.edgeAt?_eq_some.mp he).2, (h.edgeAt?_eq_some.mp he').2]

/-- Sorting is enough here: every edge is stored once, and different indices stand for different
nodes. -/
theorem edges (h : g.Refines a) : g.edges = a.graph.edges.toList := by
  unfold IndexedGraph.edges
  refine Listing.eq_toList_of_increasing (Listing.increasing_sort h.nodup_filterMap_edgeAt?) ?_
  intro e
  rw [Listing.mem_sort, h.mem_filterMap_edgeAt?]

/-- No stored edge is left out of the listing, so the two counts are the same. -/
theorem edgeCount (h : g.Refines a) : g.edgeCount = a.graph.edges.size := by
  have hall : ((GraphStore.arcs g.store).filterMap g.edgeAt?).length =
      (GraphStore.arcs g.store).length := by
    rw [List.filterMap_length_eq_length]
    rintro ⟨i, j⟩ harc
    obtain ⟨e, he, rfl, rfl⟩ := (h.mem_arcs i j).mp harc
    rw [h.edgeAt?_eq_some.mpr ⟨a.graph.closed e he, rfl⟩]
    rfl
  rw [IndexedGraph.edgeCount, edgeCount_eq, ← hall, ← ExtTreeSet.length_toList, ← h.edges]
  exact (List.length_mergeSort _).symm

theorem mem_neighbors (h : g.Refines a) {d : Direction} {m n : Node} (hn : n ∈ a.graph.nodes) :
    m ∈ g.neighbors d n ↔ m ∈ a.graph.nodes ∧
      a.number m ∈ GraphStore.neighbors g.store (a.number n) d := by
  unfold IndexedGraph.neighbors
  rw [h.index_of_mem hn]
  dsimp only
  rw [Listing.mem_dropRepeats, Listing.mem_sort, List.mem_filterMap]
  constructor
  · rintro ⟨i, hi, hm⟩
    obtain ⟨hmem, rfl⟩ := h.nodeWeight_eq_some.mp hm
    exact ⟨hmem, hi⟩
  · rintro ⟨hm, hi⟩
    exact ⟨_, hi, h.nodeWeight_eq_some.mpr ⟨hm, rfl⟩⟩

/-- Neighbours are listed as a set that has them by their indices. -/
theorem neighbors_eq (h : g.Refines a) {d : Direction} {n : Node} {s : NodeSet}
    (hs : ∀ m ∈ s, m ∈ a.graph.nodes ∧ n ∈ a.graph.nodes)
    (hindex : ∀ m ∈ a.graph.nodes, n ∈ a.graph.nodes →
      (a.number m ∈ GraphStore.neighbors g.store (a.number n) d ↔ m ∈ s)) :
    g.neighbors d n = s.toList := by
  refine Listing.eq_toList_of_increasing (increasing_neighbors g d n) fun m => ?_
  by_cases hn : n ∈ a.graph.nodes
  · rw [h.mem_neighbors hn]
    constructor
    · rintro ⟨hm, hi⟩
      exact (hindex m hm hn).mp hi
    · intro hms
      exact ⟨(hs m hms).1, (hindex m (hs m hms).1 hn).mpr hms⟩
  · rw [h.neighbors_of_not_mem hn]
    exact iff_of_false List.not_mem_nil fun hms => hn (hs m hms).2

theorem preds (h : g.Refines a) (n : Node) : g.preds n = (a.graph.preds n).toList := by
  refine h.neighbors_eq (fun m hm => a.graph.closed _ (NodeGraph.mem_preds.mp hm)) fun m hm hn => ?_
  rw [mem_incoming, h.mem_arcs_number hm hn, NodeGraph.mem_preds]

theorem succs (h : g.Refines a) (m : Node) : g.succs m = (a.graph.succs m).toList := by
  refine h.neighbors_eq (fun n hn => (a.graph.closed _ (NodeGraph.mem_succs.mp hn)).symm)
    fun n hn hm => ?_
  rw [mem_outgoing, h.mem_arcs_number hm hn, NodeGraph.mem_succs]

/-- The analyses see the nodes and edges of the numbered graph. -/
theorem contents (h : g.Refines a) : g.contents = a.graph := by
  unfold IndexedGraph.contents
  rw [h.nodes, h.edges]
  exact Numbered.ofLists_toList a.graph

/-! ### Parts and slices -/

theorem foldl_addNode (h : g.Refines a) (ns : List Node) :
    (ns.foldl (fun h n => (h.addNode n).2) g).Refines (ns.foldl Numbered.addNode a) := by
  induction ns generalizing g a with
  | nil => exact h
  | cons n ns ih => exact ih (h.addNode n).2

theorem foldl_addEdge (h : g.Refines a) (es : List Edge) :
    (es.foldl (fun h e => h.addEdge e.source e.target) g).Refines
      (es.foldl (fun b e => b.addEdge e.source e.target) a) := by
  induction es generalizing g a with
  | nil => exact h
  | cons e es ih => exact ih (h.addEdge e.source e.target)

end Refines

/-- Nodes and edges added to an empty graph, each in order. -/
def ofContents (g : NodeGraph) : IndexedGraph γ :=
  g.edges.toList.foldl (fun h e => h.addEdge e.source e.target)
    (g.nodes.toList.foldl (fun h n => (h.addNode n).2) empty)

theorem refines_ofContents (g : NodeGraph) :
    (ofContents g : IndexedGraph γ).Refines (.ofGraph g) := by
  rw [Numbered.ofGraph_eq_foldl]
  exact (refines_empty.foldl_addNode _).foldl_addEdge _

namespace Refines

/-- The part inside a set is built from what the graph has there, so how the graph was built makes no
difference to it, not even to its numbers. -/
theorem project_eq (h : g.Refines a) (keep : NodeSet) :
    g.project keep = ofContents (a.graph.project keep) := by
  have hnodes : keep.toList.filter g.contains = (a.graph.project keep).nodes.toList := by
    refine Listing.eq_toList_of_increasing (ExtTreeSet.ordered_toList.filter _) fun n => ?_
    rw [List.mem_filter, ExtTreeSet.mem_toList, h.contains_iff, mem_nodes_project, and_comm]
  have hedges : g.edges.filter (fun e => keep.contains e.source && keep.contains e.target) =
      (a.graph.project keep).edges.toList := by
    rw [h.edges]
    refine Listing.eq_toList_of_increasing (ExtTreeSet.ordered_toList.filter _) fun e => ?_
    rw [List.mem_filter, ExtTreeSet.mem_toList, mem_edges_project, Bool.and_eq_true]
    rfl
  unfold IndexedGraph.project ofContents
  rw [← hnodes, ← hedges]
  -- Passing over an edge while the others are added is the same as adding what is left of the list.
  exact List.foldl_filter.symm

theorem project (h : g.Refines a) (keep : NodeSet) :
    (g.project keep).Refines (a.project keep) := by
  rw [h.project_eq]
  exact refines_ofContents _

theorem slice (h : g.Refines a) (only : Bool) (target : Node) :
    (g.slice only target).Refines (a.slice only target) := by
  unfold IndexedGraph.slice Numbered.slice
  rw [h.contents]
  exact ((h.project _).addNode target).2

end Refines

/-! ### Sequences of mentions -/

/-- Adds what is mentioned. -/
def mention (g : IndexedGraph γ) : Mention → IndexedGraph γ
  | .node n => (g.addNode n).2
  | .edge source target => g.addEdge source target

/-- The graph that a sequence of mentions builds. -/
def ofMentions (ms : List Mention) : IndexedGraph γ := ms.foldl mention empty

theorem Refines.mention (h : g.Refines a) (m : Mention) : (g.mention m).Refines (a.mention m) := by
  cases m with
  | node n => exact (h.addNode n).2
  | edge source target => exact h.addEdge source target

theorem Refines.foldl_mention (h : g.Refines a) (ms : List Mention) :
    (ms.foldl IndexedGraph.mention g).Refines (ms.foldl Numbered.mention a) := by
  -- Both graphs take the same mention, so each step starts from a pair that is in step again.
  induction ms generalizing g a with
  | nil => exact h
  | cons m ms ih => exact ih (h.mention m)

/-- Whatever is mentioned, the map of the indices and the storage are in step. -/
theorem refines_ofMentions (ms : List Mention) :
    (ofMentions ms : IndexedGraph γ).Refines (.ofMentions ms) :=
  refines_empty.foldl_mention ms

/-- A graph lists what was mentioned, each thing once and in order, and has numbered the nodes by
their first mentions. -/
structure Records (g : IndexedGraph γ) (ms : List Mention) : Prop where
  /-- there are as many nodes as different ones were mentioned -/
  nodeCount : g.nodeCount = (ms.flatMap Mention.nodes).dedup.length
  /-- there are as many edges as different ones were mentioned -/
  edgeCount : g.edgeCount = (ms.flatMap Mention.edges).dedup.length
  nodes_increasing : g.nodes.Pairwise fun m n => compare m n = .lt
  mem_nodes : ∀ n, n ∈ g.nodes ↔ n ∈ ms.flatMap Mention.nodes
  edges_increasing : g.edges.Pairwise fun d e => compare d e = .lt
  mem_edges : ∀ e, e ∈ g.edges ↔ e ∈ ms.flatMap Mention.edges
  contains_iff : ∀ n, g.contains n = true ↔ n ∈ g.nodes
  preds_increasing : ∀ n, (g.preds n).Pairwise fun p q => compare p q = .lt
  succs_increasing : ∀ p, (g.succs p).Pairwise fun m n => compare m n = .lt
  /-- the two kinds of neighbours are converse to each other -/
  mem_preds : ∀ p n, p ∈ g.preds n ↔ n ∈ g.succs p
  mem_succs : ∀ p n, n ∈ g.succs p ↔ ⟨p, n⟩ ∈ g.edges
  /-- adding a node returns the place of its first mention among the nodes -/
  index_addNode : ∀ n, (g.addNode n).1 =
    ((ms.flatMap Mention.nodes).takeWhile (· != n)).dedup.length
  /-- the analyses see the nodes and the neighbours that are listed -/
  contents_nodes : g.contents.nodes.toList = g.nodes
  contents_preds : ∀ n, (g.contents.preds n).toList = g.preds n
  contents_succs : ∀ n, (g.contents.succs n).toList = g.succs n

/-- Two graphs answer every query alike that does not ask for indices. The parts and slices that are
made of them have even the same indices. -/
structure AnswersAlike (g h : IndexedGraph γ) : Prop where
  nodeCount : g.nodeCount = h.nodeCount
  edgeCount : g.edgeCount = h.edgeCount
  contains : ∀ n, g.contains n = h.contains n
  nodes : g.nodes = h.nodes
  edges : g.edges = h.edges
  preds : ∀ n, g.preds n = h.preds n
  succs : ∀ n, g.succs n = h.succs n
  text : g.text = h.text
  project : ∀ keep, g.project keep = h.project keep
  slice : ∀ sameProcedureOnly target, g.slice sameProcedureOnly target =
    h.slice sameProcedureOnly target
  propagate : ∀ commandAt bound, propagate g.contents commandAt bound =
    propagate h.contents commandAt bound

theorem records_ofMentions (ms : List Mention) : (ofMentions ms : IndexedGraph γ).Records ms := by
  have h : (ofMentions ms : IndexedGraph γ).Refines (.ofMentions ms) := refines_ofMentions ms
  exact
    { nodeCount := h.nodeCount.trans
        (FiniteSet.size_eq_length_dedup fun _ => Numbered.mem_nodes_ofMentions)
      edgeCount := h.edgeCount.trans
        (FiniteSet.size_eq_length_dedup fun _ => Numbered.mem_edges_ofMentions)
      nodes_increasing := h.nodes ▸ ExtTreeSet.ordered_toList
      mem_nodes := fun n => by rw [h.nodes, ExtTreeSet.mem_toList, Numbered.mem_nodes_ofMentions]
      edges_increasing := h.edges ▸ ExtTreeSet.ordered_toList
      mem_edges := fun e => by rw [h.edges, ExtTreeSet.mem_toList, Numbered.mem_edges_ofMentions]
      contains_iff := fun n => by rw [h.contains_iff, h.nodes, ExtTreeSet.mem_toList]
      preds_increasing := fun n => increasing_neighbors _ _ n
      succs_increasing := fun p => increasing_neighbors _ _ p
      mem_preds := fun p n => by
        rw [h.preds, h.succs, ExtTreeSet.mem_toList, ExtTreeSet.mem_toList, NodeGraph.mem_preds,
          NodeGraph.mem_succs]
      mem_succs := fun p n => by
        rw [h.succs, h.edges, ExtTreeSet.mem_toList, ExtTreeSet.mem_toList, NodeGraph.mem_succs]
      index_addNode := fun n => (h.addNode n).1.trans (Numbered.number_addNode_ofMentions ms n)
      contents_nodes := by rw [h.contents, h.nodes]
      contents_preds := fun n => by rw [h.contents, h.preds]
      contents_succs := fun n => by rw [h.contents, h.succs] }

/-- What a graph answers hangs on the sets of its nodes and edges alone. -/
theorem answersAlike_of_refines {g' : IndexedGraph γ} {a' : Numbered} (h : g.Refines a)
    (h' : g'.Refines a') (heq : a.graph = a'.graph) : g.AnswersAlike g' := by
  have hedges : g.edges = g'.edges := by rw [h.edges, h'.edges, heq]
  have hcontents : g.contents = g'.contents := by rw [h.contents, h'.contents, heq]
  have hproject : ∀ keep, g.project keep = g'.project keep := by
    intro keep
    rw [h.project_eq, h'.project_eq, heq]
  exact
    { nodeCount := by rw [h.nodeCount, h'.nodeCount, heq]
      edgeCount := by rw [h.edgeCount, h'.edgeCount, heq]
      contains := fun n => by rw [Bool.eq_iff_iff, h.contains_iff, h'.contains_iff, heq]
      nodes := by rw [h.nodes, h'.nodes, heq]
      edges := hedges
      preds := fun n => by rw [h.preds, h'.preds, heq]
      succs := fun n => by rw [h.succs, h'.succs, heq]
      text := by rw [IndexedGraph.text, IndexedGraph.text, hedges]
      project := hproject
      slice := fun only target => by
        rw [IndexedGraph.slice, IndexedGraph.slice, hcontents, hproject]
      propagate := fun commandAt bound => by rw [hcontents] }

/-- A graph is a record of the sets of nodes and edges that were mentioned, whatever the sequence of
mentions was: counts, listings and neighbours are those of the two sets, and adding a node returns
the place of its first mention. Two sequences that mention the same nodes and edges, in any order and
with any repetitions, build graphs that answer alike. All that the storage has to do for this is to
hand out indices one after the other and to report the edges that were added. -/
theorem graph_records_mentions_only (γ : Type) [GraphStore γ] [LawfulGraphStore γ] :
    (∀ ms : List Mention, (ofMentions ms : IndexedGraph γ).Records ms) ∧
    ∀ ms ms' : List Mention,
      (∀ n, n ∈ ms.flatMap Mention.nodes ↔ n ∈ ms'.flatMap Mention.nodes) →
      (∀ e, e ∈ ms.flatMap Mention.edges ↔ e ∈ ms'.flatMap Mention.edges) →
        (ofMentions ms : IndexedGraph γ).AnswersAlike (ofMentions ms') := by
  refine ⟨records_ofMentions, ?_⟩
  intro ms ms' hnodes hedges
  refine answersAlike_of_refines (refines_ofMentions ms) (refines_ofMentions ms') ?_
  refine ext_mem (fun n => ?_) (fun e => ?_)
  · rw [Numbered.mem_nodes_ofMentions, Numbered.mem_nodes_ofMentions, hnodes]
  · rw [Numbered.mem_edges_ofMentions, Numbered.mem_edges_ofMentions, hedges]

/-- A loop and an edge into it, with repetitions. -/
def loopLast : List Mention :=
  [.edge ⟨"main", 1⟩ ⟨"main", 2⟩, .node ⟨"main", 0⟩, .edge ⟨"main", 2⟩ ⟨"main", 2⟩,
    .edge ⟨"main", 1⟩ ⟨"main", 2⟩]

/-- The same nodes and edges, the other way round. -/
def loopFirst : List Mention :=
  [.node ⟨"main", 0⟩, .edge ⟨"main", 2⟩ ⟨"main", 2⟩, .edge ⟨"main", 1⟩ ⟨"main", 2⟩]

/-- In arrays, the two sequences store the first end of the edge at different indices, and answer
alike otherwise. -/
theorem loopLast_answersAlike_loopFirst :
    let source : Node := ⟨"main", 1⟩
    ((ofMentions loopLast : IndexedGraph ArrayStore).addNode source).1 = 0 ∧
      ((ofMentions loopFirst : IndexedGraph ArrayStore).addNode source).1 = 2 ∧
      (ofMentions loopLast : IndexedGraph ArrayStore).AnswersAlike (ofMentions loopFirst) := by
  intro source
  obtain ⟨hrecords, halike⟩ := graph_records_mentions_only ArrayStore
  refine ⟨?_, ?_, halike loopLast loopFirst (fun n => ⟨?_, ?_⟩) (fun e => ⟨?_, ?_⟩)⟩
  · rw [(hrecords loopLast).index_addNode]
    decide
  · rw [(hrecords loopFirst).index_addNode]
    decide
  · exact fun h => (by decide : loopLast.flatMap Mention.nodes ⊆ _) h
  · exact fun h => (by decide : loopFirst.flatMap Mention.nodes ⊆ _) h
  · exact fun h => (by decide : loopLast.flatMap Mention.edges ⊆ _) h
  · exact fun h => (by decide : loopFirst.flatMap Mention.edges ⊆ _) h

end AlarmDischarge.IndexedGraph
