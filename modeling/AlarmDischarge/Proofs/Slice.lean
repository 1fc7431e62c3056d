import AlarmDischarge.Proofs.NodeGraph
import AlarmDischarge.Slice
import Mathlib.Data.List.Chain

/-!
# `AlarmDischarge.Proofs.Slice`: slices and paths

`NodeGraph.ancestors` goes back from a target layer by layer (`slice_nodes`). This module says what
it finds in terms of paths, and what that makes of slices:

* `mem_ancestors`: the nodes found are those from which a path of admitted nodes leads to the target;
* `mem_nodes_slice`, `mem_edges_slice`: a slice has the nodes that the search finds, known to the
  graph or not, and all edges between them;
* `slice_congr`: a slice depends only on the edges that lead into it from nodes that it may enter;
* `project_slice`: the slice at a node of a slice is the part of the larger slice inside it, and that
  part is closed under predecessors (`mem_sliceNodes_of_edge`);
* `slice_holds_paths_to_target`: a slice has the nodes of the paths that lead to its target inside its
  scope and the edges between them, and the slice of a slice is a slice of the graph.
-/

set_option autoImplicit false

namespace AlarmDischarge.NodeGraph

open Std

/-! ### The search -/

/-- A path of edges from a node to a target on which every node before the target is admitted. -/
inductive LeadsTo (g : NodeGraph) (allow : Node → Bool) (target : Node) : Node → Prop where
  | here : LeadsTo g allow target target
  | step {m n : Node} (edge : ⟨m, n⟩ ∈ g.edges) (allowed : allow m)
      (onward : LeadsTo g allow target n) : LeadsTo g allow target m

section Search

variable {g : NodeGraph} {allow : Node → Bool} {target : Node}

/-- Two paths joined end to end, the middle node being admitted on the longer way. -/
theorem LeadsTo.trans {m n : Node} (hmn : g.LeadsTo allow n m) (hn : g.LeadsTo allow target n) :
    g.LeadsTo allow target m := by
  induction hmn with
  | here => exact hn
  | step edge allowed _ ih => exact .step edge allowed ih

/-- A path of admitted nodes stays one when more nodes are admitted. -/
theorem LeadsTo.mono {allow' : Node → Bool} {m : Node} (hallow : ∀ p, allow p → allow' p)
    (h : g.LeadsTo allow target m) : g.LeadsTo allow' target m := by
  induction h with
  | here => exact .here
  | step edge allowed _ ih => exact .step edge (hallow _ allowed) ih

/-- The search gives up nothing that it has seen. -/
theorem mem_explore_of_mem {seen layer : NodeSet} {n : Node} (hn : n ∈ seen) :
    n ∈ g.explore allow seen layer := by
  induction seen, layer using explore.induct g allow with
  | case1 seen layer next hnext =>
    rw [explore, dif_pos hnext]
    exact hn
  | case2 seen layer next hnext ih =>
    rw [explore, dif_neg hnext]
    exact ih (ExtTreeSet.mem_union_iff.mpr (.inl hn))

/-- From everything the search finds a path leads to the target, if this is so for what it has seen
to begin with. -/
theorem leadsTo_of_mem_explore {seen layer : NodeSet} (hlayer : ∀ n ∈ layer, n ∈ seen)
    (hseen : ∀ n ∈ seen, g.LeadsTo allow target n) {n : Node}
    (hn : n ∈ g.explore allow seen layer) : g.LeadsTo allow target n := by
  induction seen, layer using explore.induct g allow with
  | case1 seen layer next hnext =>
    rw [explore, dif_pos hnext] at hn
    exact hseen n hn
  | case2 seen layer next hnext ih =>
    rw [explore, dif_neg hnext] at hn
    refine ih (fun m hm => ExtTreeSet.mem_union_iff.mpr (.inr hm)) ?_ hn
    intro m hm
    rcases ExtTreeSet.mem_union_iff.mp hm with hm | hm
    · exact hseen m hm
    · obtain ⟨⟨n', hn', hedge⟩, hallow, -⟩ := mem_nextLayer.mp hm
      exact .step hedge hallow (hseen n' (hlayer n' hn'))

/-- The search misses no admitted predecessor of what it finds. The invariant is that only nodes of
the last layer can have predecessors that have not been seen. -/
theorem mem_explore_of_edge {seen layer : NodeSet}
    (hclosed : ∀ n ∈ seen, n ∉ layer → ∀ m, ⟨m, n⟩ ∈ g.edges → allow m → m ∈ seen) {m n : Node}
    (hn : n ∈ g.explore allow seen layer) (hedge : ⟨m, n⟩ ∈ g.edges) (hm : allow m) :
    m ∈ g.explore allow seen layer := by
  induction seen, layer using explore.induct g allow with
  | case1 seen layer next hnext =>
    rw [explore, dif_pos hnext] at hn ⊢
    by_cases hlayer : n ∈ layer
    · -- A predecessor that has not been seen would belong to the next layer, which is empty.
      by_cases hmem : m ∈ seen
      · exact hmem
      · have hnew : m ∈ next := mem_nextLayer.mpr ⟨⟨n, hlayer, hedge⟩, hm, hmem⟩
        rw [hnext] at hnew
        simp at hnew
    · exact hclosed n hn hlayer m hedge hm
  | case2 seen layer next hnext ih =>
    rw [explore, dif_neg hnext] at hn ⊢
    refine ih ?_ hn
    intro n' hn' hlast m' hedge' hm'
    have hold : n' ∈ seen := by
      rcases ExtTreeSet.mem_union_iff.mp hn' with h | h
      · exact h
      · exact absurd h hlast
    rw [ExtTreeSet.mem_union_iff]
    by_cases hmem : m' ∈ seen
    · exact .inl hmem
    · by_cases hlayer : n' ∈ layer
      · exact .inr (mem_nextLayer.mpr ⟨⟨n', hlayer, hedge'⟩, hm', hmem⟩)
      · exact .inl (hclosed n' hold hlayer m' hedge' hm')

/-- The ancestors of a target are the nodes from which a path of admitted nodes leads to it. -/
theorem mem_ancestors {m : Node} : m ∈ g.ancestors allow target ↔ g.LeadsTo allow target m := by
  constructor
  · refine leadsTo_of_mem_explore (fun n hn => hn) ?_
    intro n hn
    have heq : target = n := by simpa using hn
    rw [heq]
    exact .here
  · intro hm
    induction hm with
    | here => exact mem_explore_of_mem (by simp)
    | step edge allowed _ ih =>
      exact mem_explore_of_edge (fun n hn hlast => absurd hn hlast) ih edge allowed

end Search

/-! ### Slices -/

/-- The nodes that a slice at a target may enter. -/
def scope (sameProcedureOnly : Bool) (target : Node) (m : Node) : Bool :=
  !sameProcedureOnly || m.sameProcedure target

section Slices

variable {g : NodeGraph} {only : Bool} {target : Node}

theorem mem_sliceNodes {m : Node} :
    m ∈ g.sliceNodes only target ↔ g.LeadsTo (scope only target) target m := mem_ancestors

theorem self_mem_sliceNodes : target ∈ g.sliceNodes only target := mem_sliceNodes.mpr .here

theorem scope_self : scope only target target = true := by simp [scope, Node.sameProcedure]

/-- A node of a slice is admitted by it, also the target, which the search does not test. -/
theorem scope_of_mem_sliceNodes {m : Node} (hm : m ∈ g.sliceNodes only target) :
    scope only target m := by
  cases mem_sliceNodes.mp hm with
  | here => exact scope_self
  | step _ allowed _ => exact allowed

/-- The slice at a node of a slice admits the same nodes as the slice. -/
theorem scope_eq_of_mem_sliceNodes {m : Node} (hm : m ∈ g.sliceNodes only target) :
    scope only m = scope only target := by
  have hscope := scope_of_mem_sliceNodes hm
  funext n
  cases only with
  | false => rfl
  | true =>
    have hproc : m.procedure = target.procedure := by
      simpa [scope, Node.sameProcedure] using hscope
    simp [scope, Node.sameProcedure, hproc]

/-- An admitted predecessor of a node of a slice is in the slice. -/
theorem mem_sliceNodes_of_scope {m n : Node} (hn : n ∈ g.sliceNodes only target)
    (hedge : ⟨m, n⟩ ∈ g.edges) (hm : scope only target m) : m ∈ g.sliceNodes only target :=
  mem_sliceNodes.mpr (.step hedge hm (mem_sliceNodes.mp hn))

/-- A node of a slice is known to the graph, unless it is the target. -/
theorem mem_nodes_of_mem_sliceNodes {m : Node} (hm : m ∈ g.sliceNodes only target) :
    m = target ∨ m ∈ g.nodes := by
  cases mem_sliceNodes.mp hm with
  | here => exact .inl rfl
  | step edge _ _ => exact .inr (g.closed _ edge).1

/-- The nodes of a slice are the nodes that the search finds. -/
@[simp]
theorem mem_nodes_slice {m : Node} :
    m ∈ (g.slice only target).nodes ↔ m ∈ g.sliceNodes only target := by
  have hslice : m ∈ (g.slice only target).nodes ↔
      target = m ∨ m ∈ g.nodes ∧ m ∈ g.sliceNodes only target := by
    refine ExtTreeSet.mem_insert.trans ?_
    rw [LawfulEqOrd.compare_eq_iff_eq, mem_nodes_project]
  rw [hslice]
  constructor
  · rintro (rfl | h)
    · exact self_mem_sliceNodes
    · exact h.2
  · intro h
    rcases mem_nodes_of_mem_sliceNodes h with rfl | hg
    · exact .inl rfl
    · exact .inr ⟨hg, h⟩

/-- The edges of a slice are the edges of the graph between nodes of the slice. -/
@[simp]
theorem mem_edges_slice {e : Edge} :
    e ∈ (g.slice only target).edges ↔
      e ∈ g.edges ∧ e.source ∈ g.sliceNodes only target ∧ e.target ∈ g.sliceNodes only target :=
  mem_edges_project

/-- From a node of a slice a path leads to the target inside the slice. -/
theorem leadsTo_slice {m : Node} (hm : m ∈ g.sliceNodes only target) :
    (g.slice only target).LeadsTo (fun _ => true) target m := by
  induction mem_sliceNodes.mp hm with
  | here => exact .here
  | step edge _ onward ih =>
    have hn := mem_sliceNodes.mpr onward
    exact .step (mem_edges_slice.mpr ⟨edge, hm, hn⟩) rfl (ih hn)

/-! ### Slices of other graphs -/

section Congruence

variable {g' : NodeGraph}
  (hedges : ∀ m n, n ∈ g.sliceNodes only target → scope only target m →
    (⟨m, n⟩ ∈ g'.edges ↔ ⟨m, n⟩ ∈ g.edges))

include hedges

/-- Two graphs have slices with the same nodes if the same edges lead into the slice of one of them
from nodes that it may enter. Both directions go by induction on the path: into a node that is known
to be in the slice the same edges lead in both graphs. -/
theorem sliceNodes_congr : g'.sliceNodes only target = g.sliceNodes only target := by
  refine ExtTreeSet.ext_mem fun {m} => ?_
  constructor
  · intro hm
    induction mem_sliceNodes.mp hm with
    | here => exact self_mem_sliceNodes
    | step edge allowed onward ih =>
      have hn := ih (mem_sliceNodes.mpr onward)
      exact mem_sliceNodes_of_scope hn ((hedges _ _ hn allowed).mp edge) allowed
  · intro hm
    induction mem_sliceNodes.mp hm with
    | here => exact self_mem_sliceNodes
    | step edge allowed onward ih =>
      have hn := mem_sliceNodes.mpr onward
      exact mem_sliceNodes_of_scope (ih hn) ((hedges _ _ hn allowed).mpr edge) allowed

/-- And then the slices are the same. -/
theorem slice_congr : g'.slice only target = g.slice only target := by
  have hnodes := sliceNodes_congr hedges
  refine ext_mem (fun n => ?_) (fun e => ?_)
  · rw [mem_nodes_slice, mem_nodes_slice, hnodes]
  · rw [mem_edges_slice, mem_edges_slice, hnodes]
    refine and_congr_left fun h => ?_
    exact hedges e.source e.target h.2 (scope_of_mem_sliceNodes h.1)

end Congruence

/-! ### Slices of slices -/

/-- The slice at a node of a slice stays inside the slice. -/
theorem sliceNodes_subset {m n : Node} (hm : m ∈ g.sliceNodes only target)
    (hn : n ∈ g.sliceNodes only m) : n ∈ g.sliceNodes only target := by
  have hpath := mem_sliceNodes.mp hn
  rw [scope_eq_of_mem_sliceNodes hm] at hpath
  exact mem_sliceNodes.mpr (hpath.trans (mem_sliceNodes.mp hm))

/-- Inside a slice, the slice at one of its nodes is closed under predecessors. -/
theorem mem_sliceNodes_of_edge {m n p : Node} (hm : m ∈ g.sliceNodes only target)
    (hn : n ∈ g.sliceNodes only m) (hedge : ⟨p, n⟩ ∈ (g.slice only target).edges) :
    p ∈ g.sliceNodes only m := by
  obtain ⟨hg, hp, -⟩ := mem_edges_slice.mp hedge
  refine mem_sliceNodes_of_scope hn hg ?_
  rw [scope_eq_of_mem_sliceNodes hm]
  exact scope_of_mem_sliceNodes hp

/-- The slice at a node of a slice is the part of the larger slice inside it. -/
theorem project_slice {m : Node} (hm : m ∈ g.sliceNodes only target) :
    (g.slice only target).project (g.sliceNodes only m) = g.slice only m := by
  refine ext_mem ?_ ?_
  · intro n
    rw [mem_nodes_project, mem_nodes_slice, mem_nodes_slice]
    exact ⟨fun h => h.2, fun h => ⟨sliceNodes_subset hm h, h⟩⟩
  · intro e
    rw [mem_edges_project, mem_edges_slice, mem_edges_slice]
    constructor
    · intro h
      exact ⟨h.1.1, h.2⟩
    · intro h
      exact ⟨⟨h.1, sliceNodes_subset hm h.2.1, sliceNodes_subset hm h.2.2⟩, h.2⟩

/-- The slice of a slice at one of its nodes is the slice of the graph there: into a node of the
smaller slice the same edges lead in the larger slice as in the graph. -/
theorem slice_slice {m : Node} (hm : m ∈ g.sliceNodes only target) :
    (g.slice only target).slice only m = g.slice only m := by
  refine slice_congr fun p n hn hp => ?_
  rw [scope_eq_of_mem_sliceNodes hm] at hp
  have hn' : n ∈ g.sliceNodes only target := sliceNodes_subset hm hn
  constructor
  · intro hedge
    exact (mem_edges_slice.mp hedge).1
  · intro hedge
    exact mem_edges_slice.mpr ⟨hedge, mem_sliceNodes_of_scope hn' hedge hp, hn'⟩

/-! ### Slices and listed paths -/

theorem scope_eq_true_iff {m : Node} :
    scope only target m = true ↔ (only = true → m.procedure = target.procedure) := by
  cases only with
  | false => simp [scope]
  | true => simp [scope, Node.sameProcedure]

/-- From a node of a slice a path leads to the target that can be listed, and all its nodes are
admitted. -/
theorem exists_path_of_leadsTo {m : Node} (h : g.LeadsTo (scope only target) target m) :
    ∃ path : List Node, path.head? = some m ∧ path.getLast? = some target ∧
      path.IsChain (fun p q => ⟨p, q⟩ ∈ g.edges) ∧ ∀ p ∈ path, scope only target p = true := by
  induction h with
  | here =>
    refine ⟨[target], rfl, rfl, List.isChain_singleton _, ?_⟩
    intro p hp
    rw [List.mem_singleton.mp hp]
    exact scope_self
  | @step m n edge allowed onward ih =>
    obtain ⟨path, hhead, hlast, hchain, hscope⟩ := ih
    obtain ⟨rest, rfl⟩ : ∃ rest, path = n :: rest := List.head?_eq_some_iff.mp hhead
    refine ⟨m :: n :: rest, rfl, ?_, List.isChain_cons_cons.mpr ⟨edge, hchain⟩, ?_⟩
    · rw [List.getLast?_cons_cons]
      exact hlast
    · intro p hp
      rcases List.mem_cons.mp hp with rfl | hp
      · exact allowed
      · exact hscope p hp

/-- A listed path of admitted nodes leads to its last node. The induction takes one node after the
other from the front of the path. -/
theorem leadsTo_of_isChain {allow : Node → Bool} {m : Node} {rest : List Node}
    (hchain : (m :: rest).IsChain fun p q => ⟨p, q⟩ ∈ g.edges)
    (hlast : (m :: rest).getLast? = some target) (hallow : ∀ p ∈ m :: rest, allow p = true) :
    g.LeadsTo allow target m := by
  induction rest generalizing m with
  | nil =>
    have heq : m = target := by simpa using hlast
    rw [heq]
    exact .here
  | cons n rest ih =>
    obtain ⟨hedge, hchain'⟩ := List.isChain_cons_cons.mp hchain
    rw [List.getLast?_cons_cons] at hlast
    refine .step hedge (hallow m List.mem_cons_self) (ih hchain' hlast ?_)
    intro p hp
    exact hallow p (List.mem_cons_of_mem m hp)

/-- The nodes of a slice are those from which a path leads to the target without leaving the
procedure of the target, or any path at all if procedures do not count. -/
theorem mem_sliceNodes_iff_exists_path {m : Node} :
    m ∈ g.sliceNodes only target ↔
      ∃ path : List Node, path.head? = some m ∧ path.getLast? = some target ∧
        path.IsChain (fun p q => ⟨p, q⟩ ∈ g.edges) ∧
        (only = true → ∀ p ∈ path, p.procedure = target.procedure) := by
  rw [mem_sliceNodes]
  constructor
  · intro h
    obtain ⟨path, hhead, hlast, hchain, hscope⟩ := exists_path_of_leadsTo h
    refine ⟨path, hhead, hlast, hchain, ?_⟩
    intro honly p hp
    exact scope_eq_true_iff.mp (hscope p hp) honly
  · rintro ⟨path, hhead, hlast, hchain, hproc⟩
    obtain ⟨rest, rfl⟩ := List.head?_eq_some_iff.mp hhead
    refine leadsTo_of_isChain hchain hlast ?_
    intro p hp
    exact scope_eq_true_iff.mpr fun honly => hproc honly p hp

theorem nodes_slice : (g.slice only target).nodes = g.sliceNodes only target :=
  ExtTreeSet.ext_mem fun {_} => mem_nodes_slice

end Slices

namespace Numbered

theorem graph_addNode (g : Numbered) (n : Node) : (g.addNode n).graph = g.graph.addNode n := by
  unfold addNode
  split
  · rename_i hn
    -- The node is known already, so that it adds nothing to the graph either.
    refine ext_mem (fun m => ?_) (fun e => Iff.rfl)
    rw [mem_nodes_addNode]
    constructor
    · exact Or.inr
    · rintro (rfl | hm)
      · exact hn
      · exact hm
  · rfl

/-- Numbering the nodes of a graph makes no difference to its slices. -/
theorem graph_slice (g : Numbered) (only : Bool) (target : Node) :
    (g.slice only target).graph = g.graph.slice only target :=
  graph_addNode _ target

/-- Every node of a numbered graph has one number. -/
theorem length_order (g : Numbered) : g.order.length = g.graph.nodes.size := by
  have hperm : g.order.Perm g.graph.nodes.toList := by
    rw [List.perm_ext_iff_of_nodup g.nodup FiniteSet.nodup_toList]
    intro n
    rw [g.mem_order, ExtTreeSet.mem_toList]
  rw [hperm.length_eq, ExtTreeSet.length_toList]

end Numbered

/-- What a slice at a target is, whether the graph knows the target or not. Its nodes are those from
which a path leads to the target, the target itself included; if it is to stay inside the procedure
of the target, all nodes of the path belong to that procedure. Its edges are those of the graph
between these nodes. Slicing a slice at one of its nodes gives the slice of the graph there. And this
holds however the nodes are numbered: a numbered slice has the same nodes and edges, and one number
for each node. -/
theorem slice_holds_paths_to_target (g : NodeGraph) (only : Bool) (target : Node) :
    (∀ m, m ∈ g.sliceNodes only target ↔
      ∃ path : List Node, path.head? = some m ∧ path.getLast? = some target ∧
        path.IsChain (fun p q => ⟨p, q⟩ ∈ g.edges) ∧
        (only = true → ∀ p ∈ path, p.procedure = target.procedure)) ∧
    (g.slice only target).nodes = g.sliceNodes only target ∧
    (g.slice only target).nodes.size = (g.sliceNodes only target).size ∧
    (∀ m n, ⟨m, n⟩ ∈ (g.slice only target).edges ↔
      ⟨m, n⟩ ∈ g.edges ∧ m ∈ g.sliceNodes only target ∧ n ∈ g.sliceNodes only target) ∧
    (∀ m ∈ g.sliceNodes only target, (g.slice only target).slice only m = g.slice only m) ∧
    ∀ numbered : Numbered, numbered.graph = g →
      (numbered.slice only target).graph = g.slice only target ∧
        (numbered.slice only target).order.length = (g.sliceNodes only target).size := by
  refine ⟨fun m => mem_sliceNodes_iff_exists_path, nodes_slice, ?_, fun m n => mem_edges_slice,
    fun m hm => slice_slice hm, ?_⟩
  · rw [nodes_slice]
  · rintro numbered rfl
    have hgraph := numbered.graph_slice only target
    refine ⟨hgraph, ?_⟩
    rw [Numbered.length_order, hgraph, nodes_slice]

/-- A graph in which a chain leaves a procedure and comes back to it, to a loop of two nodes. -/
def detour : NodeGraph :=
  .ofLists [] [(⟨"main", 0⟩, ⟨"callee", 0⟩), (⟨"callee", 0⟩, ⟨"main", 1⟩),
    (⟨"main", 1⟩, ⟨"main", 2⟩), (⟨"main", 2⟩, ⟨"main", 1⟩)]

/-- The way through another procedure counts only if procedures do not: the slice that stays inside
one has the two nodes of the loop, and slicing it again at the other node gives the slice of the
graph there. -/
theorem slices_of_detour :
    let last : Node := ⟨"main", 2⟩
    (⟨"main", 0⟩ ∈ detour.sliceNodes false last ∧ ⟨"main", 0⟩ ∉ detour.sliceNodes true last) ∧
      ⟨"main", 1⟩ ∈ detour.sliceNodes true last ∧
      (detour.slice true last).slice true ⟨"main", 1⟩ = detour.slice true ⟨"main", 1⟩ ∧
      ((Numbered.ofGraph detour).slice true last).order.length = 2 := by
  intro last
  obtain ⟨hall, -⟩ := slice_holds_paths_to_target detour false last
  obtain ⟨hown, -, -, -, hagain, hnumbered⟩ := slice_holds_paths_to_target detour true last
  have hmem : ⟨"main", 1⟩ ∈ detour.sliceNodes true last := by
    refine (hown _).mpr ⟨[⟨"main", 1⟩, last], rfl, rfl, ?_, ?_⟩
    · exact List.isChain_pair.mpr (by decide +kernel)
    · simp [last]
  have hsize : (detour.sliceNodes true last).size = 2 := by decide +kernel
  refine ⟨⟨?_, by decide +kernel⟩, hmem, hagain _ hmem, ?_⟩
  · refine (hall _).mpr ⟨[⟨"main", 0⟩, ⟨"callee", 0⟩, ⟨"main", 1⟩, last], rfl, rfl, ?_, by simp⟩
    simp only [List.isChain_cons_cons, List.isChain_singleton, and_true]
    decide +kernel
  · rw [(hnumbered (.ofGraph detour) rfl).2, hsize]

end AlarmDischarge.NodeGraph
