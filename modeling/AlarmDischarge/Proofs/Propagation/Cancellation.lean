import AlarmDischarge.Proofs.Propagation.Contradiction
import AlarmDischarge.Proofs.Propagation.Pass

/-!
# `AlarmDischarge.Proofs.Propagation.Cancellation`: facts that meet their opposite at a join

A visit drops a fact whose opposite is available at its node (`filter_contradictions`). What an
earlier visit has stored stays, so whether two opposites cancel at a join depends on which of the
visits of the join come before the second of them arrives:

* `mem_factsAt_iff_exists_findsAt`: what is stored at a node is what some visit of the node found;
* `join_between_keeps_one_branch`: a join whose number lies between those of its two branches keeps
  what the first of them assumes, although the second assumes the opposite;
* `opposites_cancel_unless_stored_before`: when a run has converged, a node stores what a visit
  would find there and, besides, only facts that were stored before their opposite arrived. There
  are none of these where all edges that lead to the node go from smaller nodes to larger ones.
-/

set_option autoImplicit false

namespace AlarmDischarge.Propagation

open Std

variable {g : NodeGraph} {commandAt : Node → Option Command} {n : Node} {f : Formula}

/-! ### The visits of a node -/

/-- After a number of visits it is the turn of a node, and the visit finds a fact there. -/
def FindsAt (g : NodeGraph) (commandAt : Node → Option Command) (visits : Nat) (n : Node)
    (f : Formula) : Prop :=
  ((worklist g commandAt).run visits (start g commandAt)).queue.head? = some n ∧
    f ∈ transfer g commandAt (propagate g commandAt visits).table n

/-- A visit that finds a fact does not see its opposite. -/
theorem FindsAt.not_available {visits : Nat} (h : FindsAt g commandAt visits n f) :
    ¬Available g commandAt (propagate g commandAt visits).table n f.negation :=
  (mem_transfer.mp h.2).2.1

/-- One visit more stores what it finds at the node whose turn it is. -/
theorem mem_factsAt_succ {visits : Nat} :
    f ∈ (propagate g commandAt (visits + 1)).table.factsAt n ↔
      f ∈ (propagate g commandAt visits).table.factsAt n ∨ FindsAt g commandAt visits n f := by
  have hnext : (propagate g commandAt (visits + 1)).table =
      ((worklist g commandAt).step
        ((worklist g commandAt).run visits (start g commandAt))).knowledge :=
    congrArg Worklist.State.knowledge (Worklist.run_succ_eq_step _ _)
  rw [hnext]
  unfold FindsAt
  cases hq : ((worklist g commandAt).run visits (start g commandAt)).queue with
  | nil =>
    rw [Worklist.step_of_queue_nil hq]
    simp only [List.head?_nil, reduceCtorEq, false_and, or_false]
    rfl
  | cons m rest =>
    rw [mem_factsAt_step hq, List.head?_cons, Option.some.injEq]
    constructor
    · rintro (hf | ⟨rfl, hf⟩)
      · exact .inl hf
      · exact .inr ⟨rfl, hf⟩
    · rintro (hf | ⟨rfl, hf⟩)
      · exact .inl hf
      · exact .inr ⟨rfl, hf⟩

/-- A run stores at a node exactly what the visits of the node find. The induction is on the number
of visits. -/
theorem mem_factsAt_iff_exists_findsAt {cap : Nat} :
    f ∈ (propagate g commandAt cap).table.factsAt n ↔
      ∃ visits < cap, FindsAt g commandAt visits n f := by
  induction cap with
  | zero =>
    have hblank : (propagate g commandAt 0).table = blank g := rfl
    simp [hblank]
  | succ cap ih => rw [mem_factsAt_succ, ih, Nat.exists_lt_succ_right]

/-! ### Runs that converge -/

/-- A fact is stored at a node although its opposite is available there, since it was stored before:
some visit of the node found the fact when the opposite was not available yet. -/
def StoredBefore (g : NodeGraph) (commandAt : Node → Option Command) (cap : Nat) (n : Node)
    (f : Formula) : Prop :=
  Available g commandAt (propagate g commandAt cap).table n f ∧
    Available g commandAt (propagate g commandAt cap).table n f.negation ∧
    ∃ visits < cap, FindsAt g commandAt visits n f ∧
      ¬Available g commandAt (propagate g commandAt visits).table n f.negation

/-- What a node stores would be found by a visit, or was stored before its opposite arrived. -/
theorem mem_transfer_or_storedBefore {cap : Nat}
    (hf : f ∈ (propagate g commandAt cap).table.factsAt n) :
    f ∈ transfer g commandAt (propagate g commandAt cap).table n ∨
      StoredBefore g commandAt cap n f := by
  have havail := (carried_of_mem hf).available
  -- The visit that found the fact did not see the opposite; the end of the run may.
  obtain ⟨visits, hlt, hfinds⟩ := mem_factsAt_iff_exists_findsAt.mp hf
  by_cases hopp : Available g commandAt (propagate g commandAt cap).table n f.negation
  · exact .inr ⟨havail, hopp, visits, hlt, hfinds, hfinds.not_available⟩
  · exact .inl (mem_transfer.mpr ⟨havail, hopp, (mem_transfer.mp hfinds.2).2.2⟩)

/-- When a run has converged, what a node stores solves its equation up to the facts that were
stored before their opposite arrived. At every node of the graph, what a visit would find is stored;
whatever else is stored has been found by a visit that did not see its opposite, which is available
now. And if all edges that lead to the node, directly or through other nodes, go from smaller nodes
to larger ones, the node stores exactly what a visit would find. -/
theorem opposites_cancel_unless_stored_before (g : NodeGraph)
    (commandAt : Node → Option Command) (cap : Nat)
    (hconv : (propagate g commandAt cap).converged = true) :
    ∀ n ∈ g.nodes,
      (∀ f ∈ transfer g commandAt (propagate g commandAt cap).table n,
        f ∈ (propagate g commandAt cap).table.factsAt n) ∧
      (∀ f ∈ (propagate g commandAt cap).table.factsAt n,
        f ∈ transfer g commandAt (propagate g commandAt cap).table n ∨
          StoredBefore g commandAt cap n f) ∧
      ((∀ p m, g.LeadsTo (fun _ => true) n m → ⟨p, m⟩ ∈ g.edges → compare p m = .lt) →
        (propagate g commandAt cap).table.factsAt n =
          transfer g commandAt (propagate g commandAt cap).table n) := by
  intro n hn
  refine ⟨?_, ?_, ?_⟩
  · intro f hf
    exact mem_of_mem_transfer hconv hn hf
  · intro f hf
    exact mem_transfer_or_storedBefore hf
  · intro hforward
    exact factsAt_eq_transfer_of_forward_paths hconv hn hforward

/-! ### Two branches and a join

One branch assumes a condition, the other assumes its opposite, and both lead to a join that does
nothing. The three nodes can be numbered in any way. -/

/-- The edges from two branches to a join. -/
def joinGraph (first second join : Node) : NodeGraph := .ofLists [] [(first, join), (second, join)]

/-- Assumes a condition on one branch and its opposite on the other. -/
def joinProgram (first second join : Node) : Program :=
  Program.empty
    |>.addCommand first (.assume belowBound)
    |>.addCommand second (.assume (.unary .not belowBound))
    |>.addCommand join .skip

/-- A join between its branches in node order: the run converges, and the join still stores the
condition of the first branch, although its opposite arrives from the second. -/
theorem join_between_keeps_one_branch :
    let g := joinGraph ⟨"main", 0⟩ ⟨"main", 2⟩ ⟨"main", 1⟩
    let p := joinProgram ⟨"main", 0⟩ ⟨"main", 2⟩ ⟨"main", 1⟩
    (propagate g p.commandAt 100000).converged = true ∧
      .lt (.var "i") (.var "n") ∈ (propagate g p.commandAt 100000).table.factsAt ⟨"main", 1⟩ ∧
      .not (.lt (.var "i") (.var "n")) ∈
        incoming g (propagate g p.commandAt 100000).table ⟨"main", 1⟩ ∧
      transfer g p.commandAt (propagate g p.commandAt 100000).table ⟨"main", 1⟩ = ∅ := by
  decide +kernel

/-- A join behind its branches in node order: the join stores what a visit would find, and so
nothing. The join between its branches stores the condition since it was stored before. -/
theorem join_behind_cancels :
    let g := joinGraph ⟨"main", 0⟩ ⟨"main", 1⟩ ⟨"main", 2⟩
    let p := joinProgram ⟨"main", 0⟩ ⟨"main", 1⟩ ⟨"main", 2⟩
    (propagate g p.commandAt 10).converged = true ∧
      (propagate g p.commandAt 10).table.factsAt ⟨"main", 2⟩ = ∅ ∧
      StoredBefore (joinGraph ⟨"main", 0⟩ ⟨"main", 2⟩ ⟨"main", 1⟩)
        (joinProgram ⟨"main", 0⟩ ⟨"main", 2⟩ ⟨"main", 1⟩).commandAt 10 ⟨"main", 1⟩
        (.lt (.var "i") (.var "n")) := by
  intro g p
  have hconv : (propagate g p.commandAt 10).converged = true := by decide +kernel
  have hfound : transfer g p.commandAt (propagate g p.commandAt 10).table ⟨"main", 2⟩ = ∅ := by
    decide +kernel
  have hedges : ∀ e ∈ g.edges.toList, compare e.source e.target = .lt := by decide +kernel
  have hforward : ∀ q m, g.LeadsTo (fun _ => true) ⟨"main", 2⟩ m → ⟨q, m⟩ ∈ g.edges →
      compare q m = .lt :=
    fun _ _ _ hedge => hedges _ (ExtTreeSet.mem_toList.mpr hedge)
  refine ⟨hconv, ?_, ?_⟩
  · rw [← hfound]
    exact (opposites_cancel_unless_stored_before g p.commandAt 10 hconv _
      (by decide +kernel)).2.2 hforward
  · have hbetween := (opposites_cancel_unless_stored_before
      (joinGraph ⟨"main", 0⟩ ⟨"main", 2⟩ ⟨"main", 1⟩)
      (joinProgram ⟨"main", 0⟩ ⟨"main", 2⟩ ⟨"main", 1⟩).commandAt 10 (by decide +kernel)
      ⟨"main", 1⟩ (by decide +kernel)).2.1 (.lt (.var "i") (.var "n")) (by decide +kernel)
    exact hbetween.resolve_left (by decide +kernel)

end AlarmDischarge.Propagation
