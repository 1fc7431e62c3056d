import AlarmDischarge.NodeGraph.Basic

/-!
# `AlarmDischarge.NodeGraph.Ancestors`: backward closure

The ancestors of a node are the nodes from which a chain of edges leads to it. The search goes back
layer by layer and stays among the nodes it is allowed to enter.

Main definition: `NodeGraph.ancestors`, the search of `slice_nodes`.
-/

set_option autoImplicit false

namespace AlarmDischarge

open Std

/-- Fewer elements of a list pass a stronger test, if some element shows that it is stronger. -/
theorem countP_lt_countP {α : Type} {p q : α → Bool} {xs : List α} (hqp : ∀ x ∈ xs, q x → p x)
    {a : α} (ha : a ∈ xs) (hp : p a) (hq : q a = false) : xs.countP q < xs.countP p := by
  induction xs with
  | nil => simp at ha
  | cons x xs ih =>
    have hle : xs.countP q ≤ xs.countP p :=
      List.countP_mono_left fun y hy => hqp y (List.mem_cons_of_mem x hy)
    rw [List.countP_cons, List.countP_cons]
    rcases List.mem_cons.mp ha with rfl | hmem
    · rw [if_neg (by simp [hq]), if_pos hp]
      omega
    · have hlt := ih (fun y hy => hqp y (List.mem_cons_of_mem x hy)) hmem
      have hx := hqp x List.mem_cons_self
      by_cases hqx : q x
      · rw [if_pos hqx, if_pos (hx hqx)]
        omega
      · rw [if_neg hqx]
        omega

namespace NodeGraph

/-- The nodes that lead into a layer, may be entered, and have not been seen. -/
def nextLayer (g : NodeGraph) (allow : Node → Bool) (seen layer : NodeSet) : NodeSet :=
  (FiniteSet.union layer.toList g.preds).filter fun m => allow m && decide (m ∉ seen)

/-- A new layer consists of nodes of the graph that have not been seen. -/
theorem mem_nextLayer {g : NodeGraph} {allow : Node → Bool} {seen layer : NodeSet} {m : Node} :
    m ∈ g.nextLayer allow seen layer ↔
      (∃ n ∈ layer, ⟨m, n⟩ ∈ g.edges) ∧ allow m ∧ m ∉ seen := by
  simp only [nextLayer, FiniteSet.mem_filter, FiniteSet.mem_union, ExtTreeSet.mem_toList, mem_preds,
    Bool.and_eq_true, decide_eq_true_eq]

/-- Goes back from a layer until nothing new is found. Each round sees a further node of the graph,
so there are no more rounds than nodes. -/
def explore (g : NodeGraph) (allow : Node → Bool) (seen layer : NodeSet) : NodeSet :=
  let next := g.nextLayer allow seen layer
  if _h : next = ∅ then seen else explore g allow (seen ∪ next) next
termination_by g.nodes.toList.countP (fun n => decide (n ∉ seen))
decreasing_by
  -- The new layer has a node `m` of the graph that was not seen before and is seen now.
  obtain ⟨m, hm⟩ := FiniteSet.exists_mem_of_ne_empty _h
  obtain ⟨⟨n, -, he⟩, -, hs⟩ := mem_nextLayer.mp hm
  refine countP_lt_countP ?_ (ExtTreeSet.mem_toList.mpr (g.closed _ he).1) (by simpa using hs) ?_
  · intro x _ hx
    simp only [decide_eq_true_eq, ExtTreeSet.mem_union_iff] at hx ⊢
    exact fun h => hx (.inl h)
  · simp only [decide_eq_false_iff_not, Decidable.not_not, ExtTreeSet.mem_union_iff]
    exact .inr hm

/-- The nodes from which edges lead to a target through nodes that may be entered, and the target
itself. -/
def ancestors (g : NodeGraph) (allow : Node → Bool) (target : Node) : NodeSet :=
  g.explore allow {target} {target}

end NodeGraph

end AlarmDischarge
