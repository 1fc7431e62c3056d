import AlarmDischarge.Code.Command
import AlarmDischarge.NodeGraph.Basic
import Std.Data.ExtTreeMap

/-!
# `AlarmDischarge.Program`: commands and control flow

A program has a command at each of its nodes and control-flow edges between them. A node that is
only known from an edge does nothing. Here control flow is one set of edges; the maps in which a
program is kept are in `Program.Maps`.

Main definitions:

* `Program`, `Program.addCommand`, `Program.addEdge`, `Program.addPath` (`add_command`,
  `add_cfg_edge`, `add_cfg_path`);
* `Program.View`: what an analysis sees of a program (`ProgramPort`), which may hide commands.
-/

set_option autoImplicit false

namespace AlarmDischarge

open Std

/-- A program: control flow and the command at each node of it. -/
structure Program where
  flow : NodeGraph
  commands : ExtTreeMap Node Command
  total : ∀ n, n ∈ commands ↔ n ∈ flow.nodes

namespace Program

/-- The program without nodes. -/
def empty : Program := ⟨.empty, ∅, by simp [NodeGraph.empty]⟩

/-- Sets the command at a node. -/
def addCommand (p : Program) (n : Node) (c : Command) : Program where
  flow := p.flow.addNode n
  commands := p.commands.insert n c
  total m := by simp [NodeGraph.addNode, ExtTreeSet.mem_insert, p.total]

/-- Adds a control-flow edge. An end without a command is given `skip`. -/
def addEdge (p : Program) (source target : Node) : Program where
  flow := p.flow.addEdge source target
  commands := (p.commands.insertIfNew source .skip).insertIfNew target .skip
  total m := by simp [NodeGraph.addEdge, ExtTreeSet.mem_insert, p.total]

/-- Adds an edge from each node of a list to the next. -/
def addPath (p : Program) (path : List Node) : Program :=
  (path.zip path.tail).foldl (fun p e => p.addEdge e.1 e.2) p

/-- The command at a node. -/
def commandAt (p : Program) (n : Node) : Option Command := p.commands[n]?

/-- How many nodes a program has. -/
def size (p : Program) : Nat := p.commands.size

end Program

/-- What an analysis sees of a program: its control flow, and the commands it can read. -/
structure Program.View where
  flow : NodeGraph
  commandAt : Node → Option Command

namespace Program

/-- The whole of a program. -/
def view (p : Program) : View := ⟨p.flow, p.commandAt⟩

/-- The same control flow with the commands of some nodes out of sight. -/
def View.hide (v : View) (hidden : NodeSet) : View where
  flow := v.flow
  commandAt n := if n ∈ hidden then none else v.commandAt n

end Program

end AlarmDischarge
