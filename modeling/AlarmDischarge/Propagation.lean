import AlarmDischarge.Fact.Generation
import AlarmDischarge.Program
import AlarmDischarge.Worklist

/-!
# `AlarmDischarge.Propagation`: facts along a def-use graph

Facts travel along the edges of a def-use graph. A visit of a node gathers what is stored at its
predecessors, joins it with the facts generated at the node, drops what contradicts itself, and adds
the rest to what is stored at the node. Stored sets only grow. The number of visits is capped, and a
run that reaches the cap with nodes still waiting has not converged.

Main definitions:

* `FactTable`: the facts stored at each node (`DataflowTable`, with `facts_at` and `entry`);
* `Propagation.generated`: the facts of the command at a node (`gen_facts`);
* `Propagation`: the result of a run (`FixpointResult`), made by `propagate` (`solve` of
  `WorklistFactSolver`);
* `Propagation.journal`: the entries that the run leaves.
-/

set_option autoImplicit false

namespace AlarmDischarge

open Std

/-- The facts stored at each node. -/
abbrev FactTable := ExtTreeMap Node FactSet

namespace FactTable

/-- The facts stored at a node; a node that the table does not know has none. -/
def factsAt (t : FactTable) (n : Node) : FactSet := t.getD n ∅

/-- Adds facts at a node. -/
def extend (t : FactTable) (n : Node) (facts : FactSet) : FactTable :=
  t.insert n (t.factsAt n ∪ facts)

/-- How many facts are stored, counted at each node. -/
def factCount (t : FactTable) : Nat := (t.toList.flatMap fun e => e.2.toList).length

end FactTable

/-- The result of moving facts along a graph: what is stored, how many visits were made, and whether
no node was left waiting. -/
structure Propagation where
  table : FactTable
  iterations : Nat
  converged : Bool

namespace Propagation

/-- The cap on visits unless another is given. -/
def defaultCap : UInt64 := 100000

variable (g : NodeGraph) (commandAt : Node → Option Command)

/-- The facts generated at a node. -/
def generated (n : Node) : FactSet :=
  match commandAt n with
  | some c => c.facts
  | none => ∅

/-- The facts stored at the predecessors of a node. -/
def incoming (t : FactTable) (n : Node) : FactSet :=
  FiniteSet.union (g.preds n).toList t.factsAt

/-- What a visit finds to hold at a node. -/
def transfer (t : FactTable) (n : Node) : FactSet :=
  FactSet.reconcile (incoming g t n) (generated commandAt n)

/-- A visit stores what it finds, if any of it is new. -/
def visit (n : Node) (t : FactTable) : Option FactTable :=
  let found := transfer g commandAt t n
  if FiniteSet.isSubset found (t.factsAt n) then none else some (t.extend n found)

/-- The analysis. -/
def worklist : Worklist FactTable := ⟨g, visit g commandAt⟩

/-- At first nothing is stored at any node. -/
def start : Worklist.State FactTable :=
  -- Adding no facts at a node makes the node known to the table.
  (worklist g commandAt).start (g.nodes.toList.foldl (fun t n => t.extend n ∅) ∅)

/-- What a run has come to. -/
def ofState (s : Worklist.State FactTable) : Propagation :=
  ⟨s.knowledge, s.visits, s.queue.isEmpty⟩

end Propagation

/-- Moves facts along a graph, with at most `cap` visits. -/
def propagate (g : NodeGraph) (commandAt : Node → Option Command) (cap : Nat) : Propagation :=
  .ofState ((Propagation.worklist g commandAt).run cap (Propagation.start g commandAt))

/-! ### Journal -/

namespace Propagation

variable (g : NodeGraph) (commandAt : Node → Option Command)

/-- Reading the command at a node for facts. -/
def readingJournal (n : Node) : Journal :=
  match commandAt n with
  | some c => c.reading.journal
  | none => []

/-- A visit that stores something leaves a note. -/
def visitJournal (s : Worklist.State FactTable) : Journal :=
  match s.queue with
  | [] => []
  | n :: _ =>
    match visit g commandAt n s.knowledge with
    | none => []
    | some t =>
      .single .trace ("node " ++ n.text ++ " grew: " ++ (s.knowledge.factsAt n).size.repr ++
        " facts → " ++ (t.factsAt n).size.repr ++ " facts")

/-- The notes of a run, and a warning if it ends with nodes waiting. -/
def runJournal : (cap : Nat) → Worklist.State FactTable → Journal
  | 0, s =>
    if s.queue.isEmpty then []
    else
      .single .warn ("fact solver stopped after " ++ s.visits.repr ++ " iterations with " ++
        s.queue.length.repr ++ " nodes pending")
  | cap + 1, s =>
    if s.queue.isEmpty then []
    else visitJournal g commandAt s ++ runJournal cap ((worklist g commandAt).step s)

/-- The entries that moving facts along a graph leaves: the commands are read first. -/
def journal (cap : Nat) : Journal :=
  g.nodes.toList.flatMap (readingJournal commandAt) ++
    runJournal g commandAt cap (start g commandAt) ++
    .single .trace ("fact solver finished after " ++
      (propagate g commandAt cap).iterations.repr ++ " iterations")

end Propagation

end AlarmDischarge
