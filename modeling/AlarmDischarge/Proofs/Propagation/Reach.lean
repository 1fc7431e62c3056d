import AlarmDischarge.Proofs.Propagation.Stored

/-!
# `AlarmDischarge.Proofs.Propagation.Reach`: how far facts travel

A run (`solve`) stores facts node by node, in an order that depends on the queue. This module says
what is stored in terms of the graph and the commands alone:

* `mem_table`: the table of a run knows the nodes of the graph, and no others;
* `closed_unless_waiting`: a node that does not wait stores all that is available there, except for
  what meets its opposite. When the run has converged, this holds at every node;
* `mem_iff_reached`: so a fact whose opposite is generated nowhere is stored exactly at the nodes to
  which paths lead from where it is generated;
* `facts_follow_paths`: every stored fact has come along such a path, whatever the cap, and when the
  run has converged, equations have gone all the way.
-/

set_option autoImplicit false

namespace AlarmDischarge

open Std

theorem FactTable.mem_extend {t : FactTable} {m n : Node} {facts : FactSet} :
    m ∈ t.extend n facts ↔ m = n ∨ m ∈ t := by
  unfold extend
  rw [ExtTreeMap.mem_insert, LawfulEqOrd.compare_eq_iff_eq, eq_comm]

namespace Propagation

variable {g : NodeGraph} {commandAt : Node → Option Command} {n : Node} {f : Formula} {cap : Nat}

/-! ### The nodes that a table knows -/

/-- A table knows the nodes of a graph and no others. -/
def Covers (g : NodeGraph) (t : FactTable) : Prop := ∀ n, n ∈ t ↔ n ∈ g.nodes

theorem covers_blank : Covers g (blank g) := by
  intro n
  rw [← ExtTreeMap.isSome_getElem?_iff_mem, getElem?_blank]
  by_cases hn : n ∈ g.nodes
  · simp [hn]
  · simp [hn]

/-- A visit adds facts at a node of the graph, which the table knows already. -/
theorem keeps_covers : (worklist g commandAt).Keeps (Covers g) := by
  intro n t t' hn ht hv m
  rw [eq_extend_of_visit hv, FactTable.mem_extend, ht m]
  constructor
  · rintro (rfl | hm)
    · exact hn
    · exact hm
  · exact Or.inr

/-- The table of a run knows the nodes of the graph and no others. -/
theorem mem_table : n ∈ (propagate g commandAt cap).table ↔ n ∈ g.nodes :=
  table_of_keeps keeps_covers covers_blank cap n

/-- Nothing is stored outside the graph. -/
theorem mem_nodes_of_stored (hf : f ∈ (propagate g commandAt cap).table.factsAt n) :
    n ∈ g.nodes := by
  by_cases hn : n ∈ (propagate g commandAt cap).table
  · exact mem_table.mp hn
  · unfold FactTable.factsAt at hf
    rw [ExtTreeMap.getD_eq_fallback hn] at hf
    exact absurd hf ExtTreeSet.not_mem_empty

/-! ### Closure -/

/-- What is available during a run is generated somewhere, so it is not false by its shape. -/
theorem isSelfContradictory_of_available
    (hf : Available g commandAt (propagate g commandAt cap).table n f) :
    f.isSelfContradictory = false := by
  rcases hf with ⟨p, hedge, hp⟩ | hgen
  · obtain ⟨m, -, hgen⟩ := (carried_of_mem hp).exists_generated (g.closed _ hedge).1
    exact isSelfContradictory_of_generated hgen
  · exact isSelfContradictory_of_generated hgen

/-- What is available is in one of the two sets that a visit joins. -/
theorem available_iff {t : FactTable} :
    Available g commandAt t n f ↔ f ∈ incoming g t n ∨ f ∈ generated commandAt n := by
  unfold Available
  rw [mem_incoming]

/-- When a run has converged, and before that at every node that does not wait, nothing is missing.
What remains of the facts of the predecessors and of the node when opposites are dropped is stored.
In other words, a fact that is stored at a predecessor or generated at the node is stored at the
node, unless its opposite is itself stored at a predecessor or generated at the node. -/
theorem closed_unless_waiting (g : NodeGraph) (commandAt : Node → Option Command) (cap : Nat)
    (n : Node) (hn : n ∈ g.nodes)
    (hdone : (propagate g commandAt cap).converged = true ∨
      n ∉ ((worklist g commandAt).run cap (start g commandAt)).queue) :
    let t := (propagate g commandAt cap).table
    (∀ f ∈ FactSet.reconcile (incoming g t n) (generated commandAt n), f ∈ t.factsAt n) ∧
    ∀ f, f ∈ incoming g t n ∨ f ∈ generated commandAt n →
      f ∈ t.factsAt n ∨ f.negation ∈ incoming g t n ∨ f.negation ∈ generated commandAt n := by
  intro t
  have hwait : n ∉ ((worklist g commandAt).run cap (start g commandAt)).queue := by
    rcases hdone with hconv | hwait
    · exact not_waiting_of_converged hconv
    · exact hwait
  have hclosed : ∀ f ∈ transfer g commandAt t n, f ∈ t.factsAt n :=
    fun f hf => mem_of_not_waiting hn hwait hf
  refine ⟨hclosed, ?_⟩
  intro f hf
  rw [← available_iff] at hf ⊢
  by_cases hopp : Available g commandAt t n f.negation
  · exact .inr hopp
  · -- The only other reason to drop a fact is its shape.
    exact .inl (hclosed f (mem_transfer.mpr ⟨hf, hopp, isSelfContradictory_of_available hf⟩))

/-! ### A counting loop

`i := 0`, then over and over `assume(i < n)` and `i := i + 1`, and behind the loop
`assume(!(i < n))`. The step of the loop reads what it writes itself, so it leads to itself. -/

/-- The definitions of `i` and where they are read. -/
def countingLoop : NodeGraph :=
  let point (i : UInt64) : Node := ⟨"main", i⟩
  .ofLists [] [(point 0, point 1), (point 0, point 2), (point 0, point 3), (point 1, point 2),
    (point 2, point 1), (point 2, point 2), (point 2, point 3)]

/-- Sets a variable, assumes a bound, adds to the variable, and assumes that the bound is passed. -/
def countingLoopProgram : Program :=
  let point (i : UInt64) : Node := ⟨"main", i⟩
  let i : Variable := .localInt "i"
  let below : Expr := .binary .lt (.var i) (.var (.localInt "n"))
  Program.empty
    |>.addCommand (point 0) (.assign (.var i) (.int 0))
    |>.addCommand (point 1) (.assume below)
    |>.addCommand (point 2) (.assign (.var i) (.binary .add (.var i) (.int 1)))
    |>.addCommand (point 3) (.assume (.unary .not below))

/-- Behind the loop the first value of the variable is stored, as nothing opposes it. After one
visit the first node does not wait, so it stores its fact although the run is not at its end. -/
theorem closed_countingLoop :
    (propagate countingLoop countingLoopProgram.commandAt 20).converged = true ∧
      .eq (.var "i") (.int 0) ∈
        (propagate countingLoop countingLoopProgram.commandAt 20).table.factsAt ⟨"main", 3⟩ ∧
      (propagate countingLoop countingLoopProgram.commandAt 1).converged = false ∧
      .eq (.var "i") (.int 0) ∈
        (propagate countingLoop countingLoopProgram.commandAt 1).table.factsAt ⟨"main", 0⟩ := by
  have hconv : (propagate countingLoop countingLoopProgram.commandAt 20).converged = true := by
    decide +kernel
  refine ⟨hconv, ?_, by decide +kernel, ?_⟩
  · exact (closed_unless_waiting _ _ 20 ⟨"main", 3⟩ (by decide +kernel) (.inl hconv)).1 _
      (by decide +kernel)
  · exact (closed_unless_waiting _ _ 1 ⟨"main", 0⟩ (by decide +kernel)
      (.inr (by decide +kernel))).1 _ (by decide +kernel)

/-! ### Facts without an opposite -/

/-- Equations have no opposite among the facts of commands. -/
theorem negation_not_mem_generated (hf : f.IsEquational) (m : Node) :
    f.negation ∉ generated commandAt m := by
  intro hgen
  obtain ⟨c, -, hc⟩ := mem_generated.mp hgen
  exact Command.negation_not_mem_facts hf hc

/-- When a run has converged, a fact whose opposite is generated nowhere is stored exactly at the
nodes to which a path leads from a node that generates it. -/
theorem mem_iff_reached (hconv : (propagate g commandAt cap).converged = true)
    (hopp : ∀ m ∈ g.nodes, f.negation ∉ generated commandAt m) :
    f ∈ (propagate g commandAt cap).table.factsAt n ↔
      ∃ m ∈ g.nodes, f ∈ generated commandAt m ∧ g.LeadsTo (fun _ => true) n m := by
  constructor
  · intro hf
    obtain ⟨m, hm, hgen, hpath⟩ := (carried_of_mem hf).exists_path (mem_nodes_of_stored hf)
    exact ⟨m, hm, hgen, hpath.mono fun _ _ => rfl⟩
  · rintro ⟨m, hm, hgen, hpath⟩
    exact mem_of_generated hconv hopp hm hgen hpath

/-- Where facts are stored. The table of a run knows the nodes of the graph, and no others. Whatever
the cap, a fact that is stored at a node is generated at some node of the graph, from which a path
leads to the first on which the fact is stored everywhere. When the run has converged, a fact whose
opposite is generated nowhere, and so every equation, every length of an array and every choice
between two equations, is stored exactly at the nodes to which a path leads from a node that
generates it. -/
theorem facts_follow_paths (g : NodeGraph) (commandAt : Node → Option Command) (cap : Nat) :
    let t := (propagate g commandAt cap).table
    (∀ n, n ∈ t ↔ n ∈ g.nodes) ∧
    (∀ n, ∀ f ∈ t.factsAt n, ∃ m ∈ g.nodes, f ∈ generated commandAt m ∧
      g.LeadsTo (fun p => (t.factsAt p).contains f) n m) ∧
    ((propagate g commandAt cap).converged = true → ∀ f,
      f.IsEquational ∨ (∀ m ∈ g.nodes, f.negation ∉ generated commandAt m) →
        ∀ n, f ∈ t.factsAt n ↔
          ∃ m ∈ g.nodes, f ∈ generated commandAt m ∧ g.LeadsTo (fun _ => true) n m) := by
  intro t
  refine ⟨fun n => mem_table, ?_, ?_⟩
  · intro n f hf
    exact (carried_of_mem hf).exists_path (mem_nodes_of_stored hf)
  · intro hconv f hf n
    rcases hf with heq | hopp
    · exact mem_iff_reached hconv fun m _ => negation_not_mem_generated heq m
    · exact mem_iff_reached hconv hopp

/-- In the loop the bound is stored at the step because a path leads there from the assumption, and
the first value of the variable is stored exactly where paths lead from the first node. -/
theorem facts_countingLoop :
    let t := (propagate countingLoop countingLoopProgram.commandAt 20).table
    (propagate countingLoop countingLoopProgram.commandAt 20).converged = true ∧
    .lt (.var "i") (.var "n") ∈ t.factsAt ⟨"main", 2⟩ ∧
    (∃ m ∈ countingLoop.nodes,
      .lt (.var "i") (.var "n") ∈ generated countingLoopProgram.commandAt m ∧
        countingLoop.LeadsTo (fun p => (t.factsAt p).contains (.lt (.var "i") (.var "n")))
          ⟨"main", 2⟩ m) ∧
    ∀ n, .eq (.var "i") (.int 0) ∈ t.factsAt n ↔
      ∃ m ∈ countingLoop.nodes,
        .eq (.var "i") (.int 0) ∈ generated countingLoopProgram.commandAt m ∧
          countingLoop.LeadsTo (fun _ => true) n m := by
  intro t
  have hconv : (propagate countingLoop countingLoopProgram.commandAt 20).converged = true := by
    decide +kernel
  have hbound : .lt (.var "i") (.var "n") ∈ t.factsAt ⟨"main", 2⟩ := by decide +kernel
  obtain ⟨-, hpaths, hreached⟩ :=
    facts_follow_paths countingLoop countingLoopProgram.commandAt 20
  exact ⟨hconv, hbound, hpaths _ _ hbound, hreached hconv _ (.inl (.eq _ _))⟩

end Propagation

end AlarmDischarge
