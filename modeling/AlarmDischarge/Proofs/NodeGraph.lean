import AlarmDischarge.NodeGraph.Basic
import AlarmDischarge.Proofs.FiniteSet

/-!
# `AlarmDischarge.Proofs.NodeGraph`: nodes and edges of graphs

A graph is known by its nodes and edges (`ext_mem`). For each way to make one there is a lemma that
says which nodes and which edges it has: `mem_nodes_ofLists` and `mem_edges_ofLists` for a graph
given by lists, `mem_nodes_project` and `mem_edges_project` for the part of a graph inside a set
(`project`).
-/

set_option autoImplicit false

namespace AlarmDischarge.NodeGraph

open Std

/-- Graphs with the same nodes and the same edges are equal. -/
theorem ext_mem {g h : NodeGraph} (hnodes : ∀ n, n ∈ g.nodes ↔ n ∈ h.nodes)
    (hedges : ∀ e, e ∈ g.edges ↔ e ∈ h.edges) : g = h := by
  have hn : g.nodes = h.nodes := ExtTreeSet.ext_mem fun {n} => hnodes n
  have he : g.edges = h.edges := ExtTreeSet.ext_mem fun {e} => hedges e
  cases g
  cases h
  cases hn
  cases he
  rfl

@[simp]
theorem mem_nodes_project {g : NodeGraph} {keep : NodeSet} {n : Node} :
    n ∈ (g.project keep).nodes ↔ n ∈ g.nodes ∧ n ∈ keep := FiniteSet.mem_filter

@[simp]
theorem mem_edges_project {g : NodeGraph} {keep : NodeSet} {e : Edge} :
    e ∈ (g.project keep).edges ↔ e ∈ g.edges ∧ e.source ∈ keep ∧ e.target ∈ keep := by
  refine FiniteSet.mem_filter.trans ?_
  rw [Bool.and_eq_true]
  rfl

/-! ### Graphs given by lists -/

variable {g : NodeGraph} {n source target : Node} {e : Edge}

@[simp]
theorem mem_nodes_addNode : n ∈ (g.addNode source).nodes ↔ n = source ∨ n ∈ g.nodes := by
  refine ExtTreeSet.mem_insert.trans ?_
  rw [LawfulEqOrd.compare_eq_iff_eq, eq_comm]

@[simp]
theorem mem_nodes_addEdge :
    n ∈ (g.addEdge source target).nodes ↔ n = target ∨ n = source ∨ n ∈ g.nodes := by
  refine ExtTreeSet.mem_insert.trans ?_
  rw [LawfulEqOrd.compare_eq_iff_eq, ExtTreeSet.mem_insert, LawfulEqOrd.compare_eq_iff_eq,
    eq_comm, eq_comm (a := source)]

@[simp]
theorem mem_edges_addEdge :
    e ∈ (g.addEdge source target).edges ↔ e = ⟨source, target⟩ ∨ e ∈ g.edges := by
  refine ExtTreeSet.mem_insert.trans ?_
  rw [LawfulEqOrd.compare_eq_iff_eq, eq_comm]

theorem mem_nodes_foldl_addNode {ns : List Node} :
    n ∈ (ns.foldl addNode g).nodes ↔ n ∈ ns ∨ n ∈ g.nodes := by
  have hrun := FiniteSet.holds_foldl_iff (P := fun h : NodeGraph => n ∈ h.nodes) (Q := (n = ·))
    (fun _ _ => mem_nodes_addNode) g ns
  simpa using hrun

theorem edges_foldl_addNode {ns : List Node} : (ns.foldl addNode g).edges = g.edges := by
  induction ns generalizing g with
  | nil => rfl
  | cons m ns ih => rw [List.foldl_cons, ih, addNode]

theorem mem_nodes_foldl_addEdge {es : List (Node × Node)} :
    n ∈ (es.foldl (fun g e => g.addEdge e.1 e.2) g).nodes ↔
      (∃ e ∈ es, n = e.1 ∨ n = e.2) ∨ n ∈ g.nodes := by
  refine FiniteSet.holds_foldl_iff (P := fun g => n ∈ g.nodes) (fun g e => ?_) g es
  rw [mem_nodes_addEdge, or_left_comm, or_assoc]

theorem mem_edges_foldl_addEdge {es : List (Node × Node)} :
    e ∈ (es.foldl (fun g e => g.addEdge e.1 e.2) g).edges ↔
      (e.source, e.target) ∈ es ∨ e ∈ g.edges := by
  have hpair : ∀ l : Node × Node, e = ⟨l.1, l.2⟩ ↔ (e.source, e.target) = l := by
    intro l
    cases e
    cases l
    simp
  have hrun := FiniteSet.holds_foldl_iff (P := fun h : NodeGraph => e ∈ h.edges)
    (Q := ((e.source, e.target) = ·)) (fun _ l => mem_edges_addEdge.trans (or_congr_left (hpair l)))
    g es
  simpa using hrun

/-- A graph given by lists has the listed nodes and the ends of the listed edges. -/
theorem mem_nodes_ofLists {ns : List Node} {es : List (Node × Node)} :
    n ∈ (ofLists ns es).nodes ↔ (∃ e ∈ es, n = e.1 ∨ n = e.2) ∨ n ∈ ns := by
  have hempty : n ∉ (∅ : NodeGraph).nodes := ExtTreeSet.not_mem_empty
  unfold ofLists
  rw [mem_nodes_foldl_addEdge, mem_nodes_foldl_addNode, or_iff_left hempty]

/-- A graph given by lists has the listed edges. -/
theorem mem_edges_ofLists {ns : List Node} {es : List (Node × Node)} :
    e ∈ (ofLists ns es).edges ↔ (e.source, e.target) ∈ es := by
  have hempty : e ∉ (∅ : NodeGraph).edges := ExtTreeSet.not_mem_empty
  unfold ofLists
  rw [mem_edges_foldl_addEdge, edges_foldl_addNode, or_iff_left hempty]

/-- Lists that name the nodes and the edges of a graph build the graph. -/
theorem ofLists_eq {g : NodeGraph} {ns : List Node} {es : List (Node × Node)}
    (hnodes : ∀ n, n ∈ ns ↔ n ∈ g.nodes)
    (hedges : ∀ e : Edge, (e.source, e.target) ∈ es ↔ e ∈ g.edges) : ofLists ns es = g := by
  refine ext_mem (fun n => ?_) (fun e => mem_edges_ofLists.trans (hedges e))
  -- The ends of the edges are nodes already.
  rw [mem_nodes_ofLists, hnodes, or_iff_right_of_imp]
  rintro ⟨⟨m, k⟩, hl, hn⟩
  obtain ⟨hm, hk⟩ := g.closed ⟨m, k⟩ ((hedges ⟨m, k⟩).mp hl)
  rcases hn with rfl | rfl
  · exact hm
  · exact hk

end AlarmDischarge.NodeGraph
