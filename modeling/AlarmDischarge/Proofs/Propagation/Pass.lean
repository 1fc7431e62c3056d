import AlarmDischarge.Proofs.Propagation.Restriction

/-!
# `AlarmDischarge.Proofs.Propagation.Pass`: one pass in node order

At first all nodes wait in node order (`solve`). If every edge leads from a smaller node to a larger
one, each node is visited after all its predecessors, and no node is called for again. Then what is
stored at a node is what its one visit found, and the predecessors still store what that visit saw:

* `Passing.step`: a visit keeps a run in its first pass;
* `factsAt_eq_transfer_of_forward`: so a run on such a graph that has converged solves the equation
  of every node exactly, and does not only store what a visit would find;
* `forward_graph_takes_one_pass`: and it converges, after one visit for each node;
* `factsAt_eq_transfer_of_forward_paths`: and so at a node of any graph to which only such edges
  lead, directly or through other nodes.
-/

set_option autoImplicit false

namespace AlarmDischarge.Propagation

open Std

variable {g : NodeGraph} {commandAt : Node → Option Command} {s : Worklist.State FactTable}
  {m n : Node} {visited rest : List Node}

/-- Every edge leads from a smaller node to a larger one. -/
def Forward (g : NodeGraph) : Prop := ∀ e ∈ g.edges, compare e.source e.target = .lt

/-! ### Node order -/

/-- Behind a node in a graph in which all edges lead forward, its successors are still to come. -/
theorem Forward.mem_of_edge (hg : Forward g) (horder : g.nodes.toList = visited ++ n :: rest)
    (hedge : ⟨n, m⟩ ∈ g.edges) : m ∈ rest := by
  have hlt : compare n m = .lt := hg _ hedge
  have hsorted := ExtTreeSet.ordered_toList (t := g.nodes)
  have hm : m ∈ visited ++ n :: rest := by
    rw [← horder]
    exact ExtTreeSet.mem_toList.mpr (g.closed _ hedge).2
  rw [horder, List.pairwise_append] at hsorted
  rcases List.mem_append.mp hm with hbefore | hbehind
  · -- A node that comes before `n` is smaller, and `m` is larger.
    have hsmaller := hsorted.2.2 m hbefore n List.mem_cons_self
    have hlarger : compare m n = .gt := OrientedCmp.gt_iff_lt.mpr hlt
    rw [hlarger] at hsmaller
    cases hsmaller
  · rcases List.mem_cons.mp hbehind with rfl | hrest
    · rw [ReflOrd.compare_self] at hlt
      cases hlt
    · exact hrest

/-- No edge leads from a node to one that is listed with it or before it. -/
theorem Forward.ne_of_edge (hg : Forward g) (horder : g.nodes.toList = visited ++ n :: rest)
    {p : Node} (hm : m ∈ visited ++ [n]) (hedge : ⟨p, m⟩ ∈ g.edges) : p ≠ n := by
  rintro rfl
  have hrest := hg.mem_of_edge horder hedge
  have hnodup : ((visited ++ [p]) ++ rest).Nodup := by
    rw [List.append_assoc, List.singleton_append, ← horder]
    exact FiniteSet.nodup_toList
  exact (List.nodup_append.mp hnodup).2.2 m hm m hrest rfl

/-! ### One pass -/

/-- A run that is in its first pass over the nodes of a graph. The nodes that have been visited are
followed by those that wait; the former store what a visit would find, and the latter nothing. -/
structure Passing (g : NodeGraph) (commandAt : Node → Option Command) (visited : List Node)
    (s : Worklist.State FactTable) : Prop where
  order : g.nodes.toList = visited ++ s.queue
  solved : ∀ n ∈ visited, s.knowledge.factsAt n = transfer g commandAt s.knowledge n
  blank : ∀ n ∈ s.queue, s.knowledge.factsAt n = ∅

theorem passing_start : Passing g commandAt [] (start g commandAt) where
  order := rfl
  solved n hn := by simp at hn
  blank n _ := factsAt_blank

theorem factsAt_step_of_ne (hq : s.queue = n :: rest) (hm : m ≠ n) :
    ((worklist g commandAt).step s).knowledge.factsAt m = s.knowledge.factsAt m := by
  refine ExtTreeSet.ext_mem fun {f} => ?_
  rw [mem_factsAt_step hq]
  simp [hm]

/-- If all edges lead forward, a visit calls for no node that does not wait already. -/
theorem Forward.queue_step (hg : Forward g) (horder : g.nodes.toList = visited ++ s.queue)
    (hq : s.queue = n :: rest) : ((worklist g commandAt).step s).queue = rest := by
  rcases Worklist.step_cases (w := worklist g commandAt) hq with ⟨-, he⟩ | ⟨t', -, he⟩
  · rw [he]
  · rw [he]
    refine Worklist.foldl_enqueue_of_subset fun m hm => ?_
    rw [hq] at horder
    exact hg.mem_of_edge horder (NodeGraph.mem_succs.mp (ExtTreeSet.mem_toList.mp hm))

/-- A visit keeps a run in its first pass. The node visited is no predecessor of itself or of a node
visited before, so that the equations of all these nodes still hold. -/
theorem Passing.step (h : Passing g commandAt visited s) (hg : Forward g)
    (hq : s.queue = n :: rest) :
    Passing g commandAt (visited ++ [n]) ((worklist g commandAt).step s) := by
  have hqueue : ((worklist g commandAt).step s).queue = rest := hg.queue_step h.order hq
  have horder : g.nodes.toList = visited ++ n :: rest := by rw [h.order, hq]
  have hnodup : (visited ++ n :: rest).Nodup := by
    rw [← horder]
    exact FiniteSet.nodup_toList
  have hnew : n ∉ visited ∧ n ∉ rest := by
    simp only [List.nodup_append, List.nodup_cons, List.mem_cons] at hnodup
    exact ⟨fun hn => hnodup.2.2 n hn n (.inl rfl) rfl, hnodup.2.1.1⟩
  refine ⟨?_, ?_, ?_⟩
  · rw [hqueue, horder, List.append_assoc, List.singleton_append]
  · intro m hm
    have hsame : transfer g commandAt ((worklist g commandAt).step s).knowledge m =
        transfer g commandAt s.knowledge m :=
      transfer_congr fun p hedge => factsAt_step_of_ne hq (hg.ne_of_edge horder hm hedge)
    rw [hsame]
    rcases List.mem_append.mp hm with hbefore | hself
    · have hne : m ≠ n := by
        rintro rfl
        exact hnew.1 hbefore
      rw [factsAt_step_of_ne hq hne, h.solved m hbefore]
    · -- Nothing was stored at the node visited, so that it stores just what the visit finds.
      rw [List.mem_singleton.mp hself]
      refine ExtTreeSet.ext_mem fun {f} => ?_
      rw [mem_factsAt_step hq, h.blank n (by simp [hq])]
      simp
  · intro m hm
    rw [hqueue] at hm
    have hne : m ≠ n := by
      rintro rfl
      exact hnew.2 hm
    rw [factsAt_step_of_ne hq hne]
    exact h.blank m (by simp [hq, hm])

/-- A run never leaves its first pass if all edges lead forward, and has made one visit for each
node that it has passed. -/
theorem exists_passing_run (commandAt : Node → Option Command) (hg : Forward g) (bound : Nat) :
    ∃ visited, Passing g commandAt visited
        ((worklist g commandAt).run bound (start g commandAt)) ∧
      ((worklist g commandAt).run bound (start g commandAt)).visits = visited.length := by
  refine Worklist.run_preserves
    (P := fun s => ∃ visited, Passing g commandAt visited s ∧ s.visits = visited.length)
    ?_ bound ⟨[], passing_start, rfl⟩
  rintro s n rest hq ⟨visited, hpass, hcount⟩
  refine ⟨visited ++ [n], hpass.step hg hq, ?_⟩
  rw [Worklist.visits_step hq, hcount, List.length_append, List.length_singleton]

/-- If all edges lead forward and no node is left waiting, each node stores exactly what a visit
would find there. -/
theorem factsAt_eq_transfer_of_forward (hg : Forward g) {cap : Nat}
    (hconv : (propagate g commandAt cap).converged = true) (hn : n ∈ g.nodes) :
    (propagate g commandAt cap).table.factsAt n =
      transfer g commandAt (propagate g commandAt cap).table n := by
  obtain ⟨visited, hpass, -⟩ := exists_passing_run commandAt hg cap
  -- No node waits any more, so that the nodes visited are all the nodes.
  refine hpass.solved n ?_
  have horder := hpass.order
  rw [List.isEmpty_iff.mp hconv, List.append_nil] at horder
  rw [← horder]
  exact ExtTreeSet.mem_toList.mpr hn

/-- If all edges lead forward, a cap of one visit for each node is enough, and no node is visited
twice. The nodes passed and the nodes that wait are all the nodes, so a run that has used up such a
cap has none left waiting. -/
theorem converged_of_forward (commandAt : Node → Option Command) (hg : Forward g) {cap : Nat}
    (hcap : g.nodes.size ≤ cap) :
    (propagate g commandAt cap).converged = true ∧
      (propagate g commandAt cap).iterations = g.nodes.size := by
  obtain ⟨visited, hpass, hcount⟩ := exists_passing_run commandAt hg cap
  have hsize : g.nodes.size = visited.length +
      ((worklist g commandAt).run cap (start g commandAt)).queue.length := by
    rw [← ExtTreeSet.length_toList, hpass.order, List.length_append]
  have hq : ((worklist g commandAt).run cap (start g commandAt)).queue = [] := by
    by_cases hq : ((worklist g commandAt).run cap (start g commandAt)).queue = []
    · exact hq
    · -- Then the cap is used up, and there are too few nodes for that.
      have hused := Worklist.visits_run_of_queue_ne_nil hq
      have hpos := List.length_pos_iff.mpr hq
      rw [visits_start] at hused
      omega
  refine ⟨List.isEmpty_iff.mpr hq, ?_⟩
  show ((worklist g commandAt).run cap (start g commandAt)).visits = g.nodes.size
  rw [hcount, hsize, hq, List.length_nil, Nat.add_zero]

/-- On a graph in which all edges lead from smaller nodes to larger ones, one pass does it all. With
a cap of at least one visit for each node the run converges, after exactly one visit for each node,
and each node stores just what remains of the facts of its predecessors and its own when opposites
are dropped. -/
theorem forward_graph_takes_one_pass (g : NodeGraph) (commandAt : Node → Option Command) (cap : Nat)
    (hg : ∀ e ∈ g.edges, compare e.source e.target = .lt) (hcap : g.nodes.size ≤ cap) :
    let t := (propagate g commandAt cap).table
    (propagate g commandAt cap).converged = true ∧
      (propagate g commandAt cap).iterations = g.nodes.size ∧
      ∀ n ∈ g.nodes,
        t.factsAt n = FactSet.reconcile (incoming g t n) (generated commandAt n) := by
  intro t
  obtain ⟨hconv, hvisits⟩ := converged_of_forward commandAt hg hcap
  refine ⟨hconv, hvisits, ?_⟩
  intro n hn
  exact factsAt_eq_transfer_of_forward hg hconv hn

/-! ### Two branches and a call

`n := 5`, then `assume(i < n)` on one branch and `assume(!(i < n))` on the other, a join that does
nothing, and `y := n` in another procedure, whose name comes later in the order. -/

/-- The edges from a value over two branches to a join, and on to another procedure. -/
def branchesThenCall : NodeGraph :=
  let point (i : UInt64) : Node := ⟨"main", i⟩
  .ofLists [] [(point 0, point 1), (point 0, point 2), (point 1, point 3), (point 2, point 3),
    (point 3, ⟨"print", 0⟩)]

/-- Stores a value, assumes a condition on one branch and its opposite on the other, joins the
branches, and reads the value elsewhere. -/
def branchesThenCallProgram : Program :=
  let point (i : UInt64) : Node := ⟨"main", i⟩
  let below : Expr := .binary .lt (.var (.localInt "i")) (.var (.localInt "n"))
  Program.empty
    |>.addCommand (point 0) (.assign (.var (.localInt "n")) (.int 5))
    |>.addCommand (point 1) (.assume below)
    |>.addCommand (point 2) (.assume (.unary .not below))
    |>.addCommand (point 3) .skip
    |>.addCommand ⟨"print", 0⟩ (.assign (.var (.localInt "y")) (.var (.localInt "n")))

/-- Five visits are enough for the five nodes, and the join stores the value alone, since the two
assumptions cancel there. -/
theorem pass_branchesThenCall :
    let result := propagate branchesThenCall branchesThenCallProgram.commandAt 5
    branchesThenCall.nodes.size = 5 ∧ result.converged = true ∧ result.iterations = 5 ∧
      result.table.factsAt ⟨"main", 3⟩ = {.eq (.var "n") (.int 5)} := by
  intro result
  have hsize : branchesThenCall.nodes.size = 5 := by decide +kernel
  have hedges : ∀ e ∈ branchesThenCall.edges.toList, compare e.source e.target = .lt := by
    decide +kernel
  obtain ⟨hconv, hvisits, hsolved⟩ :=
    forward_graph_takes_one_pass branchesThenCall branchesThenCallProgram.commandAt 5
      (fun e he => hedges e (ExtTreeSet.mem_toList.mpr he)) (Nat.le_of_eq hsize)
  refine ⟨hsize, hconv, hvisits.trans hsize, ?_⟩
  rw [hsolved ⟨"main", 3⟩ (by decide +kernel)]
  decide +kernel

/-! ### Parts of a graph in which all edges lead forward -/

/-- It is enough that all edges lead forward that lead to a node, directly or through other nodes:
what is stored there is the same in the part of the graph from which the node can be reached. -/
theorem factsAt_eq_transfer_of_forward_paths {cap : Nat}
    (hconv : (propagate g commandAt cap).converged = true) (hn : n ∈ g.nodes)
    (hforward : ∀ p m, g.LeadsTo (fun _ => true) n m → ⟨p, m⟩ ∈ g.edges → compare p m = .lt) :
    (propagate g commandAt cap).table.factsAt n =
      transfer g commandAt (propagate g commandAt cap).table n := by
  -- The part is the slice at the node that may enter every procedure.
  have hpart : ∀ m, m ∈ g.sliceNodes false n ↔ g.LeadsTo (fun _ => true) n m :=
    fun m => NodeGraph.mem_sliceNodes
  have hkeep : ClosedUnderPreds g (g.sliceNodes false n) :=
    fun m hm p hp => NodeGraph.mem_sliceNodes_of_scope hm (NodeGraph.mem_preds.mp hp) rfl
  have hg : Forward (g.project (g.sliceNodes false n)) := by
    intro e he
    obtain ⟨hedge, -, htarget⟩ := NodeGraph.mem_edges_project.mp he
    exact hforward _ _ ((hpart _).mp htarget) hedge
  have hself : n ∈ g.sliceNodes false n := NodeGraph.self_mem_sliceNodes
  obtain ⟨hconv', -, hagree⟩ := agreeOn_project hkeep hconv
  have hsolved := factsAt_eq_transfer_of_forward hg hconv'
    (NodeGraph.mem_nodes_project.mpr ⟨hn, hself⟩)
  rw [hagree.factsAt_eq hself, hagree.transfer_eq hkeep hself] at hsolved
  exact hsolved

end AlarmDischarge.Propagation
