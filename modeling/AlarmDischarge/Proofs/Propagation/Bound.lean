import AlarmDischarge.Proofs.Propagation.Stored

/-!
# `AlarmDischarge.Proofs.Propagation.Bound`: how many visits a run takes

The visits are those of `solve`, which `max_iterations` caps. What a visit finds can shrink while
more arrives, so it is not the facts found that grow from visit to visit, but the facts stored. They
grow inside the finite set of facts that the commands of the graph establish, and a node is visited
again only after a predecessor has stored more:

* `climbs`: a visit that brings something new stores more facts at its node, never more than there
  are;
* `propagation_takes_bounded_visits`: so every run empties its queue after one visit for each node
  and at most one more for each edge and each fact, unless the cap is smaller than what it takes;
* `cap_only_cuts_short`: and then the run is the beginning of one with a larger cap.
-/

set_option autoImplicit false

namespace AlarmDischarge.Propagation

open Std

variable {g : NodeGraph} {commandAt : Node → Option Command} {t t' : FactTable} {m n : Node}
  {f : Formula}

/-- The facts that are generated at the nodes of a graph, all taken together. -/
def generatedIn (g : NodeGraph) (commandAt : Node → Option Command) : FactSet :=
  FiniteSet.union g.nodes.toList (generated commandAt)

theorem mem_generatedIn :
    f ∈ generatedIn g commandAt ↔ ∃ n ∈ g.nodes, f ∈ generated commandAt n := by
  unfold generatedIn
  simp only [FiniteSet.mem_union, ExtTreeSet.mem_toList]

/-! ### Stored sets grow inside a finite set -/

/-- Only facts generated in the graph are stored. -/
def Within (g : NodeGraph) (commandAt : Node → Option Command) (t : FactTable) : Prop :=
  ∀ n, ∀ f ∈ t.factsAt n, f ∈ generatedIn g commandAt

theorem within_blank : Within g commandAt (blank g) := by
  intro n f hf
  simp at hf

theorem keeps_within : (worklist g commandAt).Keeps (Within g commandAt) := by
  intro n t t' hn ht hv m f hf
  rw [eq_extend_of_visit hv, FactTable.mem_factsAt_extend] at hf
  rcases hf with hstored | ⟨-, hfound⟩
  · exact ht m f hstored
  · -- What a visit finds is stored at a predecessor, or generated at the node.
    rcases (mem_transfer.mp hfound).1 with ⟨p, -, hp⟩ | hgen
    · exact ht p f hp
    · exact mem_generatedIn.mpr ⟨n, hn, hgen⟩

/-- How far a node has come: how many facts are stored there. -/
def rank (t : FactTable) (n : Node) : Nat := (t.factsAt n).size

/-- A visit that brings something new stores a larger set. The two sets differ, since otherwise
everything found would have been stored before. -/
theorem rank_lt_of_visit (hv : visit g commandAt n t = some t') : rank t n < rank t' n := by
  refine FiniteSet.size_lt_of_subset_of_ne (fun f hf => mem_of_visit hv hf) ?_
  intro hsame
  have hnone : visit g commandAt n t = none := by
    refine visit_eq_none_iff.mpr fun f hf => ?_
    rw [hsame, eq_extend_of_visit hv]
    exact FactTable.mem_factsAt_extend.mpr (.inr ⟨rfl, hf⟩)
  rw [hnone] at hv
  cases hv

theorem rank_of_visit_of_ne (hv : visit g commandAt n t = some t') (hm : m ≠ n) :
    rank t' m = rank t m := by
  unfold rank
  rw [eq_extend_of_visit hv, FactTable.factsAt_extend_of_ne hm]

theorem climbs :
    (worklist g commandAt).Climbs (Within g commandAt) rank (generatedIn g commandAt).size where
  keeps := keeps_within
  bounded n ht := FiniteSet.size_le_of_subset (ht n)
  rises _ _ hv := rank_lt_of_visit hv
  others _ _ hv hm := Nat.le_of_eq (rank_of_visit_of_ne hv hm).symm

/-! ### The end of the run -/

/-- Every run comes to an end by itself. With a cap of one visit for each node, and one for each
edge and each fact that is generated in the graph, it converges, after at least one visit for each
node and not more visits than this. More exactly, the graph and the commands determine a number of
visits: a run whose cap allows them converges after just these, and any other run makes as many
visits as its cap allows and does not converge. -/
theorem propagation_takes_bounded_visits (g : NodeGraph) (commandAt : Node → Option Command) :
    let bound := g.nodes.size + g.edges.size * (generatedIn g commandAt).size
    (∀ cap, bound ≤ cap →
      (propagate g commandAt cap).converged = true ∧
        g.nodes.size ≤ (propagate g commandAt cap).iterations ∧
        (propagate g commandAt cap).iterations ≤ bound) ∧
    ∃ total, ∀ cap,
      (total ≤ cap → (propagate g commandAt cap).converged = true ∧
        (propagate g commandAt cap).iterations = total) ∧
      (cap < total → (propagate g commandAt cap).converged = false ∧
        (propagate g commandAt cap).iterations = cap) := by
  intro bound
  have hblank : Within g commandAt (blank g) := within_blank
  -- The number of visits of a run that no cap cuts short.
  obtain ⟨total, hlow, hhigh, hrun⟩ := climbs.exists_total hblank
  have henough : ∀ cap, total ≤ cap → (propagate g commandAt cap).converged = true ∧
      (propagate g commandAt cap).iterations = total := by
    intro cap hcap
    obtain ⟨hq, hvisits⟩ := (hrun cap).1 hcap
    exact ⟨converged_propagate.mpr hq, hvisits⟩
  refine ⟨fun cap hcap => ?_, total, fun cap => ⟨henough cap, fun hcap => ?_⟩⟩
  · obtain ⟨hconv, hiter⟩ := henough cap (Nat.le_trans hhigh hcap)
    exact ⟨hconv, hiter ▸ hlow, hiter ▸ hhigh⟩
  · obtain ⟨hq, hvisits⟩ := (hrun cap).2 hcap
    exact ⟨Bool.eq_false_iff.mpr fun hconv => hq (converged_propagate.mp hconv), hvisits⟩

/-! ### Two nodes that lead to each other

`x := 1` and `assume(x < n)`, with an edge from each to the other and one from the second to itself.
There are two nodes, three edges and two facts, so a cap of eight is enough. -/

/-- A graph with a cycle and a loop. -/
def cycleWithLoop : NodeGraph :=
  let point (i : UInt64) : Node := ⟨"main", i⟩
  .ofLists [] [(point 0, point 1), (point 1, point 0), (point 1, point 1)]

/-- Stores a value, and assumes that it is below another. -/
def cycleWithLoopProgram : Program :=
  let point (i : UInt64) : Node := ⟨"main", i⟩
  Program.empty
    |>.addCommand (point 0) (.assign (.var (.localInt "x")) (.int 1))
    |>.addCommand (point 1) (.assume (.binary .lt (.var (.localInt "x")) (.var (.localInt "n"))))

/-- The run on the cycle converges within eight visits, and no run with another cap goes further. -/
theorem visits_cycleWithLoop :
    (propagate cycleWithLoop cycleWithLoopProgram.commandAt 8).converged = true ∧
      2 ≤ (propagate cycleWithLoop cycleWithLoopProgram.commandAt 8).iterations ∧
      (propagate cycleWithLoop cycleWithLoopProgram.commandAt 8).iterations ≤ 8 ∧
      ∃ total, ∀ cap, total ≤ cap →
        (propagate cycleWithLoop cycleWithLoopProgram.commandAt cap).iterations = total := by
  have hnodes : cycleWithLoop.nodes.size = 2 := by decide +kernel
  have hedges : cycleWithLoop.edges.size = 3 := by decide +kernel
  have hfacts : (generatedIn cycleWithLoop cycleWithLoopProgram.commandAt).size = 2 := by
    decide +kernel
  obtain ⟨hbound, total, htotal⟩ :=
    propagation_takes_bounded_visits cycleWithLoop cycleWithLoopProgram.commandAt
  rw [hnodes, hedges, hfacts] at hbound
  obtain ⟨hconv, hlow, hhigh⟩ := hbound 8 (Nat.le_refl 8)
  exact ⟨hconv, hlow, hhigh, total, fun cap hcap => ((htotal cap).1 hcap).2⟩

/-! ### Two caps -/

/-- A run goes on from where one with a smaller cap has stopped. -/
theorem propagate_add (cap more : Nat) :
    propagate g commandAt (cap + more) =
      .ofState ((worklist g commandAt).run more
        ((worklist g commandAt).run cap (start g commandAt))) := by
  unfold propagate
  rw [Worklist.run_add]

/-- Nothing that is stored is lost as a run goes on. -/
theorem mem_factsAt_run {s : Worklist.State FactTable} (bound : Nat)
    (hf : f ∈ s.knowledge.factsAt n) :
    f ∈ ((worklist g commandAt).run bound s).knowledge.factsAt n :=
  Worklist.run_preserves (P := fun s => f ∈ s.knowledge.factsAt n)
    (fun hq h => (mem_factsAt_step hq).mpr (.inl h)) bound hf

theorem iterations_le (cap : Nat) : (propagate g commandAt cap).iterations ≤ cap := by
  have hle : (propagate g commandAt cap).iterations ≤ (start g commandAt).visits + cap :=
    Worklist.visits_run_le cap _
  rw [visits_start] at hle
  omega

/-- A run that does not converge uses up its cap. -/
theorem iterations_of_not_converged {cap : Nat}
    (hconv : (propagate g commandAt cap).converged = false) :
    (propagate g commandAt cap).iterations = cap := by
  have hwait : ((worklist g commandAt).run cap (start g commandAt)).queue ≠ [] := by
    intro hnil
    rw [converged_propagate.mpr hnil] at hconv
    cases hconv
  have hused : (propagate g commandAt cap).iterations = (start g commandAt).visits + cap :=
    Worklist.visits_run_of_queue_ne_nil hwait
  rw [visits_start] at hused
  omega

/-- A cap that allows the visits which some run takes to converge leads to the same result. -/
theorem propagate_eq_of_iterations_le {cap cap' : Nat}
    (hconv : (propagate g commandAt cap').converged = true)
    (hle : (propagate g commandAt cap').iterations ≤ cap) :
    propagate g commandAt cap = propagate g commandAt cap' := by
  have hallowed : (propagate g commandAt cap').iterations ≤ (start g commandAt).visits + cap := by
    rw [visits_start]
    omega
  exact congrArg ofState
    ((Worklist.run_of_total (List.isEmpty_iff.mp hconv) cap).1 hallowed)

/-- A cap cuts a run short and does nothing else. No run makes more visits than its cap, and one
that does not converge makes all of them. With a larger cap a run stores at least as much at every
node, and makes at least as many visits; if the smaller cap was enough, nothing changes. And a cap
is enough as soon as it allows the visits that some run takes to converge, so also if it allows just
these. -/
theorem cap_only_cuts_short (g : NodeGraph) (commandAt : Node → Option Command) :
    (∀ cap, (propagate g commandAt cap).iterations ≤ cap ∧
      ((propagate g commandAt cap).converged = false →
        (propagate g commandAt cap).iterations = cap)) ∧
    (∀ cap₁ cap₂, cap₁ ≤ cap₂ →
      (∀ n, ∀ f ∈ (propagate g commandAt cap₁).table.factsAt n,
        f ∈ (propagate g commandAt cap₂).table.factsAt n) ∧
      (propagate g commandAt cap₁).iterations ≤ (propagate g commandAt cap₂).iterations ∧
      ((propagate g commandAt cap₁).converged = true →
        propagate g commandAt cap₂ = propagate g commandAt cap₁)) ∧
    ∀ cap₁ cap₂, (propagate g commandAt cap₂).converged = true →
      (propagate g commandAt cap₂).iterations ≤ cap₁ →
      propagate g commandAt cap₁ = propagate g commandAt cap₂ := by
  refine ⟨fun cap => ⟨iterations_le cap, iterations_of_not_converged⟩, ?_, ?_⟩
  · intro cap₁ cap₂ hle
    obtain ⟨more, rfl⟩ := Nat.exists_eq_add_of_le hle
    refine ⟨?_, ?_, ?_⟩
    · intro n f hf
      rw [propagate_add]
      exact mem_factsAt_run more hf
    · rw [propagate_add]
      exact Worklist.visits_le_visits_run more _
    · intro hconv
      rw [propagate_add, Worklist.run_of_queue_nil more (List.isEmpty_iff.mp hconv)]
      rfl
  · intro cap₁ cap₂ hconv hle
    exact propagate_eq_of_iterations_le hconv hle

/-- On the cycle four visits are enough: a cap of four leads to the result of larger ones. A cap of
three cuts the run short, and nothing is stored by then that is not stored in the end. -/
theorem caps_cycleWithLoop :
    let run := propagate cycleWithLoop cycleWithLoopProgram.commandAt
    ((run 8).converged = true ∧ (run 8).iterations = 4 ∧ run 4 = run 8 ∧ run 9 = run 8) ∧
      (run 3).converged = false ∧ (run 3).iterations = 3 ∧
      ∀ n, ∀ f ∈ (run 3).table.factsAt n, f ∈ (run 8).table.factsAt n := by
  intro run
  have hconv : (run 8).converged = true := by decide +kernel
  have hvisits : (run 8).iterations = 4 := by decide +kernel
  have hshort : (run 3).converged = false := by decide +kernel
  obtain ⟨hcap, hcaps, henough⟩ :=
    cap_only_cuts_short cycleWithLoop cycleWithLoopProgram.commandAt
  refine ⟨⟨hconv, hvisits, ?_, ?_⟩, hshort, ?_, ?_⟩
  · exact henough 4 8 hconv (Nat.le_of_eq hvisits)
  · exact (hcaps 8 9 (by decide)).2.2 hconv
  · exact (hcap 3).2 hshort
  · exact (hcaps 3 8 (by decide)).1

end AlarmDischarge.Propagation
