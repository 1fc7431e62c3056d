import AlarmDischarge.Node

/-!
# `AlarmDischarge.NodeGraph.Store`: storage for graphs

A graph is kept in storage that knows nodes and edges by index. What the storage is made of is left
open: `GraphStore` names its operations, and `LawfulGraphStore` what is relied on, namely that
indices are handed out one after the other and that the edges that were added are found again. The
names of the operations are those of `petgraph`.

* `GraphStore`: `add_node`, `add_edge`, `find_edge`, `neighbors_directed`, `node_weight`,
  `node_weights`, `edge_indices`, `edge_endpoints`, `node_count` and `edge_count`;
* `GraphStore.arcs`: the ends of all edges, by index;
* `LawfulGraphStore`: the laws;
* `ArrayStore`: storage in two arrays.
-/

set_option autoImplicit false

namespace AlarmDischarge

/-- The two ways along an edge. -/
inductive Direction where
  | incoming
  | outgoing
deriving DecidableEq

/-- The operations of storage for graphs. -/
class GraphStore (γ : Type) where
  empty : γ
  /-- stores a node and returns its index -/
  addNode : γ → Node → Nat × γ
  /-- stores an edge from one index to another -/
  addEdge : γ → Nat → Nat → γ
  /-- the index of an edge from one index to another, if there is one -/
  findEdge : γ → Nat → Nat → Option Nat
  /-- the indices at the other ends of the edges that enter or leave an index -/
  neighbors : γ → Nat → Direction → List Nat
  /-- the node at an index -/
  nodeWeight : γ → Nat → Option Node
  /-- the nodes, by index -/
  nodeWeights : γ → List Node
  edgeIndices : γ → List Nat
  edgeEndpoints : γ → Nat → Option (Nat × Nat)
  nodeCount : γ → Nat
  edgeCount : γ → Nat

/-- The ends of all edges. -/
def GraphStore.arcs {γ : Type} [GraphStore γ] (s : γ) : List (Nat × Nat) :=
  (edgeIndices s).filterMap (edgeEndpoints s)

open GraphStore in
/-- What is relied on of storage for graphs. -/
class LawfulGraphStore (γ : Type) [GraphStore γ] : Prop where
  nodeWeights_empty : nodeWeights (empty : γ) = []
  arcs_empty : arcs (empty : γ) = []
  /-- indices are handed out one after the other -/
  index_addNode : ∀ (s : γ) (n : Node), (addNode s n).1 = nodeCount s
  nodeWeights_addNode : ∀ (s : γ) (n : Node), nodeWeights (addNode s n).2 = nodeWeights s ++ [n]
  arcs_addNode : ∀ (s : γ) (n : Node), arcs (addNode s n).2 = arcs s
  nodeWeights_addEdge : ∀ (s : γ) (i j : Nat), i < nodeCount s → j < nodeCount s →
    nodeWeights (addEdge s i j) = nodeWeights s
  arcs_addEdge : ∀ (s : γ) (i j : Nat), i < nodeCount s → j < nodeCount s →
    arcs (addEdge s i j) = arcs s ++ [(i, j)]
  nodeWeight_eq : ∀ (s : γ) (i : Nat), nodeWeight s i = (nodeWeights s)[i]?
  nodeCount_eq : ∀ s : γ, nodeCount s = (nodeWeights s).length
  edgeCount_eq : ∀ s : γ, edgeCount s = (arcs s).length
  /-- an edge is found if it was added -/
  isSome_findEdge : ∀ (s : γ) (i j : Nat), (findEdge s i j).isSome = true ↔ (i, j) ∈ arcs s
  /-- neighbours are the other ends of the edges that were added -/
  mem_incoming : ∀ (s : γ) (i j : Nat), i ∈ neighbors s j .incoming ↔ (i, j) ∈ arcs s
  mem_outgoing : ∀ (s : γ) (i j : Nat), j ∈ neighbors s i .outgoing ↔ (i, j) ∈ arcs s

/-! ### Storage in arrays -/

/-- The nodes and the ends of the edges, each in the order in which they were added. -/
structure ArrayStore where
  weights : Array Node := #[]
  ends : Array (Nat × Nat) := #[]

namespace ArrayStore

instance : GraphStore ArrayStore where
  empty := {}
  addNode s n := (s.weights.size, { s with weights := s.weights.push n })
  addEdge s i j := { s with ends := s.ends.push (i, j) }
  findEdge s i j := s.ends.findIdx? (· == (i, j))
  -- The edge that was added last comes first.
  neighbors s i
    | .incoming => (s.ends.toList.reverse.filter (·.2 == i)).map Prod.fst
    | .outgoing => (s.ends.toList.reverse.filter (·.1 == i)).map Prod.snd
  nodeWeight s i := s.weights[i]?
  nodeWeights s := s.weights.toList
  edgeIndices s := List.range s.ends.size
  edgeEndpoints s e := s.ends[e]?
  nodeCount s := s.weights.size
  edgeCount s := s.ends.size

/-- Looking up one index after the other lists an array. -/
theorem filterMap_range_getElem? {α : Type} (xs : List α) :
    (List.range xs.length).filterMap (fun i => xs[i]?) = xs := by
  induction xs with
  | nil => rfl
  | cons a xs ih =>
    rw [List.length_cons, List.range_succ_eq_map, List.filterMap_cons, List.filterMap_map]
    exact congrArg (a :: ·) ih

theorem arcs_eq (s : ArrayStore) : GraphStore.arcs s = s.ends.toList := by
  refine Eq.trans ?_ (filterMap_range_getElem? s.ends.toList)
  show (List.range s.ends.size).filterMap (fun e => s.ends[e]?) = _
  simp only [Array.length_toList, Array.getElem?_toList]

instance : LawfulGraphStore ArrayStore where
  nodeWeights_empty := rfl
  arcs_empty := rfl
  index_addNode _ _ := rfl
  nodeWeights_addNode s n := Array.toList_push
  arcs_addNode s n := by rw [arcs_eq, arcs_eq]; rfl
  nodeWeights_addEdge _ _ _ _ _ := rfl
  arcs_addEdge s i j _ _ := by
    rw [arcs_eq, arcs_eq]
    exact Array.toList_push
  nodeWeight_eq s i := Array.getElem?_toList.symm
  nodeCount_eq s := Array.length_toList.symm
  edgeCount_eq s := by rw [arcs_eq]; exact Array.length_toList.symm
  isSome_findEdge s i j := by
    rw [arcs_eq, Array.mem_toList_iff, Array.mem_iff_getElem]
    show (s.ends.findIdx? (· == (i, j))).isSome = true ↔ _
    simp
  mem_incoming s i j := by
    rw [arcs_eq]
    show i ∈ (s.ends.toList.reverse.filter (·.2 == j)).map Prod.fst ↔ _
    simp
  mem_outgoing s i j := by
    rw [arcs_eq]
    show j ∈ (s.ends.toList.reverse.filter (·.1 == i)).map Prod.snd ↔ _
    simp

end ArrayStore

end AlarmDischarge
