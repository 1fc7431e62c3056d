import AlarmDischarge.Proofs.Propagation.Stored

/-!
# `AlarmDischarge.Proofs.Propagation.Restriction`: facts inside a part of a graph

Facts travel along edges (`solve`), so what lies behind a set of nodes that is closed under
predecessors cannot influence what is stored inside it. Which facts are stored depends on the order
in which they arrive, so it is not enough to compare what both runs end with: the run on the part
does the same visits in the same order as the run on the whole graph does inside the part, and
leaves out the others.

* `Mirrors`: the two runs are at the same point of what they do inside the part;
* `Mirrors.run`: for every number of visits in the whole graph there is one, not larger, in the part;
* `facts_independent_of_slice`: runs that converge store the same facts inside the part, and so the
  facts at a node do not depend on the slice in which they are computed.
-/

set_option autoImplicit false

namespace AlarmDischarge.Propagation

open Std

variable {g : NodeGraph} {commandAt : Node → Option Command} {keep : NodeSet}
  {s s' : Worklist.State FactTable} {t t' : FactTable} {n : Node}

/-! ### Neighbours inside the part -/

/-- A set of nodes into which no edge leads from outside. -/
def ClosedUnderPreds (g : NodeGraph) (keep : NodeSet) : Prop := ∀ n ∈ keep, ∀ m ∈ g.preds n, m ∈ keep

/-- Into a node of the part the same edges lead as in the whole graph. -/
theorem mem_edges_project_of_mem (hkeep : ClosedUnderPreds g keep) (hn : n ∈ keep) {m : Node} :
    ⟨m, n⟩ ∈ (g.project keep).edges ↔ ⟨m, n⟩ ∈ g.edges := by
  rw [NodeGraph.mem_edges_project]
  constructor
  · intro h
    exact h.1
  · intro h
    exact ⟨h, hkeep n hn m (NodeGraph.mem_preds.mpr h), hn⟩

theorem toList_succs_project (hn : n ∈ keep) :
    ((g.project keep).succs n).toList = (g.succs n).toList.filter keep.contains := by
  rw [← ExtTreeSet.toList_filter]
  refine congrArg ExtTreeSet.toList (ExtTreeSet.ext_mem fun {m} => ?_)
  rw [NodeGraph.mem_succs, NodeGraph.mem_edges_project, FiniteSet.mem_filter, NodeGraph.mem_succs]
  constructor
  · intro h
    exact ⟨h.1, h.2.2⟩
  · intro h
    exact ⟨h.1, hn, h.2⟩

/-- No edge leads from outside into the part. -/
theorem filter_succs_eq_nil (hkeep : ClosedUnderPreds g keep) (hn : n ∉ keep) :
    (g.succs n).toList.filter keep.contains = [] := by
  rw [List.filter_eq_nil_iff]
  intro m hm hmem
  have hedge := NodeGraph.mem_succs.mp (ExtTreeSet.mem_toList.mp hm)
  exact hn (hkeep m hmem n (NodeGraph.mem_preds.mpr hedge))

/-! ### One visit -/

/-- Two tables store the same inside a set of nodes. -/
def AgreeOn (keep : NodeSet) (t t' : FactTable) : Prop := ∀ n ∈ keep, t'[n]? = t[n]?

theorem AgreeOn.factsAt_eq (h : AgreeOn keep t t') (hn : n ∈ keep) :
    t'.factsAt n = t.factsAt n := by
  rw [FactTable.factsAt_eq, FactTable.factsAt_eq, h n hn]

/-- Inside the part a visit finds the same in both graphs. -/
theorem AgreeOn.transfer_eq (h : AgreeOn keep t t') (hkeep : ClosedUnderPreds g keep)
    (hn : n ∈ keep) :
    transfer (g.project keep) commandAt t' n = transfer g commandAt t n := by
  have hin : incoming (g.project keep) t' n = incoming g t n := by
    refine ExtTreeSet.ext_mem fun {f} => ?_
    rw [mem_incoming, mem_incoming]
    refine exists_congr fun m => ?_
    rw [mem_edges_project_of_mem hkeep hn]
    refine and_congr_right fun hedge => ?_
    rw [h.factsAt_eq (hkeep n hn m (NodeGraph.mem_preds.mpr hedge))]
  unfold transfer
  rw [hin]

theorem AgreeOn.extend (h : AgreeOn keep t t') (hn : n ∈ keep) (facts : FactSet) :
    AgreeOn keep (t.extend n facts) (t'.extend n facts) := by
  intro m hm
  rw [FactTable.getElem?_extend, FactTable.getElem?_extend, h.factsAt_eq hn, h m hm]

/-- What is added outside the part does not show inside it. -/
theorem AgreeOn.extend_of_not_mem (h : AgreeOn keep t t') (hn : n ∉ keep) (facts : FactSet) :
    AgreeOn keep (t.extend n facts) t' := by
  intro m hm
  have hne : m ≠ n := by
    rintro rfl
    exact hn hm
  rw [FactTable.getElem?_extend, if_neg hne]
  exact h m hm

/-- Inside the part a visit brings something new in one graph exactly if it does in the other, and
then the tables agree afterwards. -/
theorem AgreeOn.visit (commandAt : Node → Option Command) (h : AgreeOn keep t t')
    (hkeep : ClosedUnderPreds g keep) (hn : n ∈ keep) :
    (visit g commandAt n t = none ∧ visit (g.project keep) commandAt n t' = none) ∨
      ∃ u u', visit g commandAt n t = some u ∧
        visit (g.project keep) commandAt n t' = some u' ∧ AgreeOn keep u u' := by
  have hfound : transfer (g.project keep) commandAt t' n = transfer g commandAt t n :=
    h.transfer_eq hkeep hn
  simp only [Propagation.visit, hfound, h.factsAt_eq hn]
  split
  · exact .inl ⟨rfl, rfl⟩
  · exact .inr ⟨_, _, rfl, rfl, h.extend hn _⟩

/-! ### Two runs side by side -/

/-- A run on the whole graph and a run on a part of it are at the same point of what they do inside
the part: the same nodes of the part wait in the same order, and the same is stored there. -/
structure Mirrors (keep : NodeSet) (s s' : Worklist.State FactTable) : Prop where
  queue : s'.queue = s.queue.filter keep.contains
  agree : AgreeOn keep s.knowledge s'.knowledge
  visits : s'.visits ≤ s.visits

theorem mirrors_start :
    Mirrors keep (start g commandAt) (start (g.project keep) commandAt) where
  queue := ExtTreeSet.toList_filter
  agree n hn := by
    show (blank (g.project keep))[n]? = (blank g)[n]?
    rw [getElem?_blank, getElem?_blank]
    simp [hn]
  visits := Nat.le_refl 0

/-- A visit inside the part is made by both runs, and a visit outside it by the run on the whole
graph alone. -/
theorem Mirrors.step (commandAt : Node → Option Command) (h : Mirrors keep s s')
    (hkeep : ClosedUnderPreds g keep) {rest : List Node} (hq : s.queue = n :: rest) :
    Mirrors keep ((worklist g commandAt).step s) ((worklist (g.project keep) commandAt).step s') ∨
      Mirrors keep ((worklist g commandAt).step s) s' := by
  have hvisits := h.visits
  by_cases hn : n ∈ keep
  · left
    have hq' : s'.queue = n :: rest.filter keep.contains := by
      rw [h.queue, hq, List.filter_cons_of_pos hn]
    rcases h.agree.visit commandAt hkeep hn with ⟨hv, hv'⟩ | ⟨u, u', hv, hv', hagree⟩
    · simp only [Worklist.step, hq, hq', worklist, hv, hv']
      exact ⟨rfl, h.agree, by dsimp only; omega⟩
    · simp only [Worklist.step, hq, hq', worklist, hv, hv']
      refine ⟨?_, hagree, by dsimp only; omega⟩
      rw [toList_succs_project hn, Worklist.filter_foldl_enqueue]
  · right
    have hq' : s'.queue = rest.filter keep.contains := by
      rw [h.queue, hq, List.filter_cons_of_neg hn]
    rcases Worklist.step_cases (w := worklist g commandAt) hq with ⟨-, he⟩ | ⟨u, hv, he⟩
    · rw [he]
      exact ⟨hq', h.agree, by dsimp only; omega⟩
    · rw [he]
      refine ⟨?_, ?_, by dsimp only; omega⟩
      · -- None of the successors that join the queue is inside the part.
        dsimp only
        rw [Worklist.filter_foldl_enqueue]
        show s'.queue = ((g.succs n).toList.filter keep.contains).foldl _ _
        rw [filter_succs_eq_nil hkeep hn, hq', List.foldl_nil]
      · have hu : u = s.knowledge.extend n (transfer g commandAt s.knowledge n) :=
          eq_extend_of_visit hv
        rw [hu]
        exact h.agree.extend_of_not_mem hn _

/-- Whatever number of visits the run on the whole graph has made, the run on the part comes to the
same point with no more visits. -/
theorem Mirrors.run (commandAt : Node → Option Command) (h : Mirrors keep s s')
    (hkeep : ClosedUnderPreds g keep) (bound : Nat) :
    ∃ bound' ≤ bound, Mirrors keep ((worklist g commandAt).run bound s)
      ((worklist (g.project keep) commandAt).run bound' s') := by
  induction bound generalizing s s' with
  | zero => exact ⟨0, Nat.le_refl 0, h⟩
  | succ bound ih =>
    rw [Worklist.run_succ]
    cases hq : s.queue with
    | nil =>
      -- The run on the whole graph stands still.
      obtain ⟨bound', hle, hrun⟩ := ih h
      rw [Worklist.step_of_queue_nil hq]
      exact ⟨bound', Nat.le_succ_of_le hle, hrun⟩
    | cons n rest =>
      rcases h.step commandAt hkeep hq with hstep | hstep
      · obtain ⟨bound', hle, hrun⟩ := ih hstep
        refine ⟨bound' + 1, Nat.succ_le_succ hle, ?_⟩
        rw [Worklist.run_succ]
        exact hrun
      · obtain ⟨bound', hle, hrun⟩ := ih hstep
        exact ⟨bound', Nat.le_succ_of_le hle, hrun⟩

/-! ### Runs that converge -/

/-- A run on the part converges if the run on the whole graph does, with no more visits, and both
store the same inside the part. -/
theorem agreeOn_project {cap : Nat} (hkeep : ClosedUnderPreds g keep)
    (hconv : (propagate g commandAt cap).converged = true) :
    (propagate (g.project keep) commandAt cap).converged = true ∧
      (propagate (g.project keep) commandAt cap).iterations ≤
        (propagate g commandAt cap).iterations ∧
      AgreeOn keep (propagate g commandAt cap).table
        (propagate (g.project keep) commandAt cap).table := by
  obtain ⟨bound', hle, hrun⟩ := mirrors_start.run commandAt hkeep cap
  have hq : ((worklist (g.project keep) commandAt).run bound'
      (start (g.project keep) commandAt)).queue = [] := by
    rw [hrun.queue, List.isEmpty_iff.mp hconv, List.filter_nil]
  -- The smaller number of visits was enough, so the cap itself leads to the same state.
  rw [← Worklist.run_eq_of_queue_nil hle hq] at hrun hq
  exact ⟨List.isEmpty_iff.mpr hq, hrun.visits, hrun.agree⟩

/-- Two runs that converge are the same, whatever their caps. -/
theorem propagate_eq_of_converged {cap cap' : Nat}
    (h : (propagate g commandAt cap).converged = true)
    (h' : (propagate g commandAt cap').converged = true) :
    propagate g commandAt cap = propagate g commandAt cap' :=
  congrArg ofState (Worklist.run_eq_run (List.isEmpty_iff.mp h) (List.isEmpty_iff.mp h'))

/-- Taking a part of a graph does not change the facts in it. If the run on a graph converges, then
so does the run on a part that is closed under predecessors, with no more visits, and both store the
same at every node of the part. In particular the slices at a target and at a node of its slice store
the same at every node of the smaller slice. -/
theorem facts_independent_of_slice (g : NodeGraph) (commandAt : Node → Option Command) :
    (∀ (cap : Nat) (keep : NodeSet), ClosedUnderPreds g keep →
      (propagate g commandAt cap).converged = true →
      (propagate (g.project keep) commandAt cap).converged = true ∧
        (propagate (g.project keep) commandAt cap).iterations ≤
          (propagate g commandAt cap).iterations ∧
        ∀ n ∈ keep, (propagate (g.project keep) commandAt cap).table[n]? =
          (propagate g commandAt cap).table[n]?) ∧
    ∀ (only : Bool) (target m : Node) (cap cap' : Nat), m ∈ g.sliceNodes only target →
      (propagate (g.slice only target) commandAt cap).converged = true →
      (propagate (g.slice only m) commandAt cap').converged = true →
      ∀ n ∈ (g.slice only m).nodes, (propagate (g.slice only m) commandAt cap').table[n]? =
        (propagate (g.slice only target) commandAt cap).table[n]? := by
  constructor
  · intro cap keep hkeep hconv
    exact agreeOn_project hkeep hconv
  · intro only target m cap cap' hm hconv hconv' n hn
    have hkeep : ClosedUnderPreds (g.slice only target) (g.sliceNodes only m) :=
      fun q hq p hp => NodeGraph.mem_sliceNodes_of_edge hm hq (NodeGraph.mem_preds.mp hp)
    -- The smaller slice is a part of the larger one, so the first half applies to the larger slice.
    obtain ⟨hpart, -, hagree⟩ := agreeOn_project hkeep hconv
    rw [NodeGraph.project_slice hm] at hpart hagree
    rw [propagate_eq_of_converged hconv' hpart]
    exact hagree n (NodeGraph.mem_nodes_slice.mp hn)

/-! ### A loop and what follows it

The first two nodes assume a condition and its opposite and lead to each other; the third follows the
loop and the fourth follows the third. -/

/-- The graph of a loop with two nodes behind it. -/
def loopThenTail : NodeGraph :=
  let point (i : UInt64) : Node := ⟨"main", i⟩
  .ofLists [] [(point 0, point 1), (point 1, point 0), (point 1, point 2), (point 2, point 3)]

/-- Assumes a condition, assumes its opposite, does nothing, and stores a value. -/
def loopThenTailProgram : Program :=
  let point (i : UInt64) : Node := ⟨"main", i⟩
  let condition : Expr := .binary .lt (.var (.localInt "i")) (.var (.localInt "n"))
  Program.empty
    |>.addCommand (point 0) (.assume condition)
    |>.addCommand (point 1) (.assume (.unary .not condition))
    |>.addCommand (point 2) .skip
    |>.addCommand (point 3) (.assign (.var (.localInt "x")) (.int 1))

/-- The slice at the third node stores there what the slice at the fourth does, and so does the part
of the graph without the fourth node. -/
theorem facts_loopThenTail :
    (propagate loopThenTail loopThenTailProgram.commandAt 20).converged = true ∧
    (propagate (loopThenTail.project {⟨"main", 0⟩, ⟨"main", 1⟩, ⟨"main", 2⟩})
        loopThenTailProgram.commandAt 20).table[(⟨"main", 2⟩ : Node)]? =
      (propagate loopThenTail loopThenTailProgram.commandAt 20).table[(⟨"main", 2⟩ : Node)]? ∧
    (propagate (loopThenTail.slice true ⟨"main", 2⟩)
        loopThenTailProgram.commandAt 10).table[(⟨"main", 2⟩ : Node)]? =
      (propagate (loopThenTail.slice true ⟨"main", 3⟩)
        loopThenTailProgram.commandAt 20).table[(⟨"main", 2⟩ : Node)]? := by
  have hconv : (propagate loopThenTail loopThenTailProgram.commandAt 20).converged = true := by
    decide +kernel
  have hpreds : ∀ n ∈ ({⟨"main", 0⟩, ⟨"main", 1⟩, ⟨"main", 2⟩} : NodeSet).toList,
      ∀ m ∈ (loopThenTail.preds n).toList,
        m ∈ ({⟨"main", 0⟩, ⟨"main", 1⟩, ⟨"main", 2⟩} : NodeSet) := by
    decide +kernel
  have hclosed : ClosedUnderPreds loopThenTail {⟨"main", 0⟩, ⟨"main", 1⟩, ⟨"main", 2⟩} :=
    fun n hn m hm => hpreds n (ExtTreeSet.mem_toList.mpr hn) m (ExtTreeSet.mem_toList.mpr hm)
  obtain ⟨hpart, hslices⟩ :=
    facts_independent_of_slice loopThenTail loopThenTailProgram.commandAt
  refine ⟨hconv, (hpart 20 _ hclosed hconv).2.2 _ (by decide +kernel), ?_⟩
  exact hslices true ⟨"main", 3⟩ ⟨"main", 2⟩ 20 10 (by decide +kernel) (by decide +kernel)
    (by decide +kernel) _ (by decide +kernel)

end AlarmDischarge.Propagation
