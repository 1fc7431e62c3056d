import AlarmDischarge.NodeGraph.Basic

/-!
# `AlarmDischarge.Worklist`: visiting the nodes of a graph until nothing changes

Both analyses of the library move information along the edges of a graph. They keep a queue of nodes
to visit, first in first out. Visiting a node may add to what is known; if it does, the successors
of the node join the queue unless they wait there already. The run is over when the queue is empty.

Main definitions:

* `Worklist`: a graph and what a visit of a node does to the knowledge;
* `Worklist.State`: the queue, the knowledge, and the number of visits so far;
* `Worklist.step`, `Worklist.run`: one visit, and as many as a bound allows (the loops of `solve` and
  `reaching_out`);
* `Worklist.Marked`, `Worklist.runMarked`: the same with a set of the nodes that wait (`queued`).
-/

set_option autoImplicit false

namespace AlarmDischarge

open Std

/-- An analysis that visits nodes: `visit` returns `none` if the visit brings nothing new. -/
structure Worklist (σ : Type) where
  graph : NodeGraph
  visit : Node → σ → Option σ

namespace Worklist

variable {σ : Type}

/-- How far a run has come. -/
structure State (σ : Type) where
  queue : List Node
  knowledge : σ
  visits : Nat

/-- At first every node waits, in node order. -/
def start (w : Worklist σ) (knowledge : σ) : State σ := ⟨w.graph.nodes.toList, knowledge, 0⟩

/-- Puts a node at the end of a queue, unless it waits there already. -/
def enqueue (queue : List Node) (n : Node) : List Node :=
  if n ∈ queue then queue else queue ++ [n]

/-- Visits the first waiting node. -/
def step (w : Worklist σ) (s : State σ) : State σ :=
  match s.queue with
  | [] => s
  | n :: rest =>
    match w.visit n s.knowledge with
    | none => ⟨rest, s.knowledge, s.visits + 1⟩
    | some knowledge => ⟨(w.graph.succs n).toList.foldl enqueue rest, knowledge, s.visits + 1⟩

/-- Visits nodes until none waits, but at most `bound` times. -/
def run (w : Worklist σ) : (bound : Nat) → State σ → State σ
  | 0, s => s
  | bound + 1, s => if s.queue.isEmpty then s else run w bound (w.step s)

/-! ### Marks -/

/-- A state with marks: a node has one as long as it waits, so that the queue need not be
searched. -/
structure Marked (σ : Type) extends State σ where
  marks : NodeSet

/-- At first every node waits and has a mark. -/
def startMarked (w : Worklist σ) (knowledge : σ) : Marked σ :=
  ⟨w.start knowledge, .ofList w.graph.nodes.toList⟩

/-- Marks a node and puts it at the end of a queue, unless it has a mark. -/
def mark (q : List Node × NodeSet) (n : Node) : List Node × NodeSet :=
  if n ∈ q.2 then q else (q.1 ++ [n], q.2.insert n)

/-- Visits the first waiting node. -/
def stepMarked (w : Worklist σ) (s : Marked σ) : Marked σ :=
  match s.queue with
  | [] => s
  | n :: rest =>
    -- The mark goes before the visit: the node may be a successor of itself.
    let marks := s.marks.erase n
    match w.visit n s.knowledge with
    | none => ⟨⟨rest, s.knowledge, s.visits + 1⟩, marks⟩
    | some knowledge =>
      let (queue, marks) := (w.graph.succs n).toList.foldl mark (rest, marks)
      ⟨⟨queue, knowledge, s.visits + 1⟩, marks⟩

/-- Visits nodes until none waits, but at most `bound` times. -/
def runMarked (w : Worklist σ) : (bound : Nat) → Marked σ → Marked σ
  | 0, s => s
  | bound + 1, s => if s.queue.isEmpty then s else runMarked w bound (w.stepMarked s)

end Worklist

end AlarmDischarge
