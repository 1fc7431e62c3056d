import AlarmDischarge.Program.Maps
import AlarmDischarge.Proofs.Program
import AlarmDischarge.Proofs.Sorting

/-!
# `AlarmDischarge.Proofs.ProgramMaps`: the three maps of a program agree

A program in memory (`Program`) has a map of commands and two maps of control flow, and no write
touches them all at once. `Maps.Refines` says that the maps agree: they stand for one set of edges,
where one map has the ends and the other the starts, and the commands are those of its nodes.

* `Neighbors.Holds.add`: what one write to a map of neighbours does;
* `Maps.Refines.addCommand`, `Maps.Refines.addEdge`: each addition (`add_command`, `add_cfg_edge`)
  leaves maps that agree;
* `Maps.refines_ofAdditions`: so does any sequence of additions;
* `program_records_additions`: so the listings of a program are those of what was added, and sequences
  that differ only in the order of additions, but not in the order of the commands for one node, build
  the same maps.
-/

set_option autoImplicit false

namespace AlarmDischarge

open Std

/-! ### One map of neighbours -/

namespace Program.Neighbors

/-- A map has the sets of neighbours that are given, and no entry where the set is empty. -/
def Holds (t : Neighbors) (neighbors : Node → NodeSet) : Prop :=
  ∀ n, t[n]? = if (neighbors n).isEmpty then none else some (neighbors n)

namespace Holds

variable {t : Neighbors} {neighbors : Node → NodeSet}

theorem getD (h : t.Holds neighbors) (n : Node) : t.getD n ∅ = neighbors n := by
  rw [ExtTreeMap.getD_eq_getD_getElem?, h]
  by_cases hempty : (neighbors n).isEmpty = true
  · rw [if_pos hempty, ExtTreeSet.isEmpty_iff.mp hempty]
    rfl
  · rw [if_neg hempty]
    rfl

theorem list (h : t.Holds neighbors) (n : Node) : t.list n = (neighbors n).toList := by
  unfold Neighbors.list
  rw [h]
  by_cases hempty : (neighbors n).isEmpty = true
  · rw [if_pos hempty, ExtTreeSet.isEmpty_iff.mp hempty]
    rfl
  · rw [if_neg hempty]

/-- A write adds one neighbour of one node and leaves the other nodes alone. -/
theorem add (h : t.Holds neighbors) {neighbors' : Node → NodeSet} {n neighbor : Node}
    (hadd : ∀ k, neighbors' k = if k = n then (neighbors n).insert neighbor else neighbors k) :
    (t.add n neighbor).Holds neighbors' := by
  intro k
  show (t.insert n ((t.getD n ∅).insert neighbor))[k]? = _
  rw [FiniteSet.getElem?_insert_eq_ite, h.getD, hadd]
  by_cases hk : k = n
  -- The set at the node is not empty after the write, so its entry is due.
  · simp [hk]
  · simp only [if_neg hk]
    exact h k

/-- The sets of neighbours determine the map. -/
theorem eq {t' : Neighbors} (h : t.Holds neighbors) (h' : t'.Holds neighbors) : t = t' :=
  ExtTreeMap.ext_getElem? fun n => (h n).trans (h' n).symm

end Holds

end Program.Neighbors

/-! ### Neighbours of an added edge -/

namespace NodeGraph

theorem succs_addEdge (g : NodeGraph) (source target n : Node) :
    (g.addEdge source target).succs n =
      if n = source then (g.succs source).insert target else g.succs n := by
  refine ExtTreeSet.ext_mem fun m => ?_
  rw [mem_succs, mem_edges_addEdge]
  by_cases hn : n = source
  · rw [if_pos hn, ExtTreeSet.mem_insert, LawfulEqOrd.compare_eq_iff_eq, mem_succs, hn, Edge.mk.injEq,
      eq_comm (a := target)]
    exact or_congr_left (and_iff_right rfl)
  · simp [hn, mem_succs]

theorem preds_addEdge (g : NodeGraph) (source target n : Node) :
    (g.addEdge source target).preds n =
      if n = target then (g.preds target).insert source else g.preds n := by
  refine ExtTreeSet.ext_mem fun m => ?_
  rw [mem_preds, mem_edges_addEdge]
  by_cases hn : n = target
  · rw [if_pos hn, ExtTreeSet.mem_insert, LawfulEqOrd.compare_eq_iff_eq, mem_preds, hn, Edge.mk.injEq,
      eq_comm (a := source)]
    exact or_congr_left (and_iff_left rfl)
  · simp [hn, mem_preds]

end NodeGraph

namespace Program.Maps

/-! ### Maps that agree -/

/-- Three maps stand for a program. -/
structure Refines (p : Maps) (q : Program) : Prop where
  commands : p.commands = q.commands
  /-- one map has the ends of the edges by their starts -/
  succs : p.succs.Holds q.flow.succs
  /-- the other has the starts of the same edges by their ends -/
  preds : p.preds.Holds q.flow.preds

theorem refines_empty : empty.Refines .empty where
  commands := rfl
  succs _ := ExtTreeMap.getElem?_empty
  preds _ := ExtTreeMap.getElem?_empty

/-- The maps that stand for a program are determined by it. -/
theorem eq_of_refines {p p' : Maps} {q : Program} (h : p.Refines q) (h' : p'.Refines q) :
    p = p' := by
  have hcommands : p.commands = p'.commands := h.commands.trans h'.commands.symm
  have hsuccs : p.succs = p'.succs := h.succs.eq h'.succs
  have hpreds : p.preds = p'.preds := h.preds.eq h'.preds
  cases p
  cases p'
  cases hcommands
  cases hsuccs
  cases hpreds
  rfl

namespace Refines

variable {p : Maps} {q : Program}

theorem addCommand (h : p.Refines q) (n : Node) (c : Command) :
    (p.addCommand n c).Refines (q.addCommand n c) where
  commands := congrArg (·.insert n c) h.commands
  succs := h.succs
  preds := h.preds

/-- The two writes of an edge add one and the same edge. -/
theorem addEdge (h : p.Refines q) (source target : Node) :
    (p.addEdge source target).Refines (q.addEdge source target) where
  commands := congrArg (fun t => (t.insertIfNew source .skip).insertIfNew target .skip) h.commands
  succs := h.succs.add (q.flow.succs_addEdge source target)
  preds := h.preds.add (q.flow.preds_addEdge source target)

theorem foldl_addEdge (h : p.Refines q) (links : List (Node × Node)) :
    (links.foldl (fun p l => p.addEdge l.1 l.2) p).Refines
      (links.foldl (fun q l => q.addEdge l.1 l.2) q) := by
  induction links generalizing p q with
  | nil => exact h
  | cons l links ih => exact ih (h.addEdge l.1 l.2)

theorem nodes (h : p.Refines q) : p.nodes = q.flow.nodes.toList := by
  refine Listing.eq_toList_of_increasing ExtTreeMap.ordered_keys fun n => ?_
  show n ∈ p.commands.keys ↔ _
  rw [ExtTreeMap.mem_keys, h.commands, q.total]

theorem commandAt (h : p.Refines q) (n : Node) : p.commandAt n = q.commandAt n :=
  congrArg (·[n]?) h.commands

theorem predecessors (h : p.Refines q) (n : Node) : p.predecessors n = (q.flow.preds n).toList :=
  h.preds.list n

theorem successors (h : p.Refines q) (n : Node) : p.successors n = (q.flow.succs n).toList :=
  h.succs.list n

/-- The analyses see the control flow and the commands of the program. -/
theorem view (h : p.Refines q) : p.view = q.view := by
  have hflow : p.view.flow = q.flow := by
    refine NodeGraph.ofLists_eq (fun n => ?_) fun e => ?_
    · rw [h.nodes, ExtTreeSet.mem_toList]
    · rw [List.mem_flatMap, h.nodes]
      simp only [List.mem_map, Prod.mk.injEq, h.successors, ExtTreeSet.mem_toList,
        NodeGraph.mem_succs]
      constructor
      · rintro ⟨n, -, m, he, rfl, rfl⟩
        exact he
      · intro he
        exact ⟨e.source, (q.flow.closed e he).1, e.target, he, rfl, rfl⟩
  have hcommands : p.view.commandAt = q.view.commandAt := funext h.commandAt
  show (⟨p.view.flow, p.view.commandAt⟩ : View) = ⟨q.flow, q.view.commandAt⟩
  rw [hflow, hcommands]

end Refines

/-! ### Sequences of additions -/

/-- Makes an addition to a program. -/
def add (p : Maps) : Addition → Maps
  | .command n c => p.addCommand n c
  | .edge source target => p.addEdge source target
  | .path nodes => p.addPath nodes

/-- The program that a sequence of additions builds. -/
def ofAdditions (as : List Addition) : Maps := as.foldl add empty

theorem Refines.add {p : Maps} {q : Program} (h : p.Refines q) (a : Addition) :
    (p.add a).Refines (q.add a) := by
  cases a with
  | command n c => exact h.addCommand n c
  | edge source target => exact h.addEdge source target
  | path nodes => exact h.foldl_addEdge (nodes.zip nodes.tail)

theorem Refines.foldl_add {p : Maps} {q : Program} (h : p.Refines q) (as : List Addition) :
    (as.foldl Maps.add p).Refines (as.foldl Program.add q) := by
  induction as generalizing p q with
  | nil => exact h
  | cons a as ih => exact ih (h.add a)

/-- Whatever is added, the three maps agree. -/
theorem refines_ofAdditions (as : List Addition) :
    (ofAdditions as).Refines (Program.ofAdditions as) :=
  refines_empty.foldl_add as

/-- A program lists the nodes, commands and edges that were added, with its nodes and the neighbours
of each node in order. -/
structure Records (p : Maps) (as : List Addition) : Prop where
  nodes_increasing : p.nodes.Pairwise fun m n => compare m n = .lt
  /-- the nodes are those that were given a command or are an end of an added edge -/
  mem_nodes : ∀ n, n ∈ p.nodes ↔ (∃ c, .command n c ∈ as) ∨ IsEnd as n
  size : p.size = p.nodes.length
  /-- a node has the last command that it was given; only a node that was given none has `skip` from
  an edge -/
  commandAt : ∀ n c, p.commandAt n = some c ↔
    (commandsFor n as).getLast? = some c ∨ commandsFor n as = [] ∧ c = .skip ∧ IsEnd as n
  predecessors_increasing : ∀ n, (p.predecessors n).Pairwise fun m k => compare m k = .lt
  successors_increasing : ∀ n, (p.successors n).Pairwise fun m k => compare m k = .lt
  /-- the two maps of control flow are converse to each other -/
  mem_predecessors : ∀ m n, m ∈ p.predecessors n ↔ n ∈ p.successors m
  mem_successors : ∀ m n, n ∈ p.successors m ↔ IsAdded as ⟨m, n⟩
  /-- the analyses see what is listed -/
  view_nodes : p.view.flow.nodes.toList = p.nodes
  view_preds : ∀ n, (p.view.flow.preds n).toList = p.predecessors n
  view_succs : ∀ n, (p.view.flow.succs n).toList = p.successors n

theorem records_ofAdditions (as : List Addition) : (ofAdditions as).Records as := by
  have h := refines_ofAdditions as
  exact
    { nodes_increasing := ExtTreeMap.ordered_keys
      mem_nodes := fun n => by
        show n ∈ (ofAdditions as).commands.keys ↔ _
        rw [h.commands, mem_keys_ofAdditions]
      size := ExtTreeMap.length_keys.symm
      commandAt := fun n c => by rw [h.commandAt, commandAt_ofAdditions_eq_some_iff]
      predecessors_increasing := fun n => h.predecessors n ▸ ExtTreeSet.ordered_toList
      successors_increasing := fun n => h.successors n ▸ ExtTreeSet.ordered_toList
      mem_predecessors := fun m n => by
        rw [h.predecessors, h.successors, ExtTreeSet.mem_toList, ExtTreeSet.mem_toList,
          NodeGraph.mem_preds, NodeGraph.mem_succs]
      mem_successors := fun m n => by
        rw [h.successors, ExtTreeSet.mem_toList, NodeGraph.mem_succs, mem_edges_ofAdditions]
      view_nodes := by rw [h.view, h.nodes]; rfl
      view_preds := fun n => by rw [h.view, h.predecessors]; rfl
      view_succs := fun n => by rw [h.view, h.successors]; rfl }

/-- A program records what was added to it: its nodes, commands and edges are those of the additions,
where the last command for a node counts and edges give `skip` only to nodes that are given none, and
the two maps of its control flow never disagree. So the order of additions makes no difference beyond
that: a reordering that keeps the order of the commands for each node builds the same three maps. -/
theorem program_records_additions :
    (∀ as : List Addition, (ofAdditions as).Records as) ∧
    ∀ as as' : List Addition, as.Perm as' → (∀ n, commandsFor n as = commandsFor n as') →
      ofAdditions as = ofAdditions as' := by
  refine ⟨records_ofAdditions, ?_⟩
  intro as as' hperm hcommands
  -- Edges depend on which additions there are and not on their order.
  have hadded : ∀ e, IsAdded as e ↔ IsAdded as' e := fun e =>
    exists_congr fun a => and_congr_left fun _ => hperm.mem_iff
  have hsame : Program.ofAdditions as = Program.ofAdditions as' := by
    refine ext_commandAt (fun n => ?_) (fun e => ?_)
    · refine Option.ext fun c => ?_
      rw [commandAt_ofAdditions_eq_some_iff, commandAt_ofAdditions_eq_some_iff, hcommands n]
      simp only [IsEnd, hadded]
    · rw [mem_edges_ofAdditions, mem_edges_ofAdditions, hadded]
  refine eq_of_refines (refines_ofAdditions as) ?_
  rw [hsame]
  exact refines_ofAdditions as'

/-- A loop whose first node is given a command, becomes the end of edges, and is given another one. -/
def loopThenCommand : List Addition :=
  [.command ⟨"main", 0⟩ (.fetch (.var (.localInt "x"))), .edge ⟨"main", 0⟩ ⟨"main", 1⟩,
    .command ⟨"main", 0⟩ (.ret none), .path [⟨"main", 1⟩, ⟨"main", 2⟩, ⟨"main", 0⟩]]

/-- The same additions in another order, which keeps that of the two commands. -/
def commandThenLoop : List Addition :=
  [.path [⟨"main", 1⟩, ⟨"main", 2⟩, ⟨"main", 0⟩],
    .command ⟨"main", 0⟩ (.fetch (.var (.localInt "x"))), .command ⟨"main", 0⟩ (.ret none),
    .edge ⟨"main", 0⟩ ⟨"main", 1⟩]

/-- The two sequences build the same program. In it the first node has the second command, and the
others, which were given none, have `skip`. -/
theorem ofAdditions_loopThenCommand :
    loopThenCommand.Perm commandThenLoop ∧
      ofAdditions loopThenCommand = ofAdditions commandThenLoop ∧
      (ofAdditions commandThenLoop).commandAt ⟨"main", 0⟩ = some (.ret none) ∧
      (ofAdditions commandThenLoop).commandAt ⟨"main", 1⟩ = some .skip := by
  obtain ⟨hrecords, hreorder⟩ := program_records_additions
  have hperm : loopThenCommand.Perm commandThenLoop := by decide
  have hcommands : ∀ n, commandsFor n loopThenCommand = commandsFor n commandThenLoop := by
    intro n
    by_cases hn : (⟨"main", 0⟩ : Node) = n
    · simp [commandsFor, loopThenCommand, commandThenLoop, List.filterMap_cons,
        Addition.commandFor?, hn]
    · simp [commandsFor, loopThenCommand, commandThenLoop, List.filterMap_cons,
        Addition.commandFor?, hn]
  refine ⟨hperm, hreorder _ _ hperm hcommands, ?_, ?_⟩
  · exact ((hrecords commandThenLoop).commandAt _ _).mpr (.inl (by decide))
  · refine ((hrecords commandThenLoop).commandAt _ _).mpr (.inr ⟨by decide, rfl, ?_⟩)
    refine ⟨⟨⟨"main", 0⟩, ⟨"main", 1⟩⟩, ⟨.edge _ _, ?_, rfl⟩, .inr rfl⟩
    decide

end Program.Maps

end AlarmDischarge
