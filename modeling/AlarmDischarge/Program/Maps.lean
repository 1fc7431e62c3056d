import AlarmDischarge.Program

/-!
# `AlarmDischarge.Program.Maps`: programs in three maps

A program that is held in memory (`Program`) keeps its control flow twice, once by the nodes that
edges leave and once by those that they enter, so that both kinds of neighbours are looked up. An
edge is written to the two maps one after the other.

Main definitions:

* `Program.Maps`, `Maps.addCommand`, `Maps.addEdge`, `Maps.addPath`: `add_command`, `add_cfg_edge`
  and `add_cfg_path`;
* `Maps.commandAt`, `Maps.nodes`, `Maps.predecessors`, `Maps.successors`: what an analysis asks for
  (`ProgramPort`);
* `Maps.view`: control flow and commands, as the analyses take them.
-/

set_option autoImplicit false

namespace AlarmDischarge.Program

open Std

/-- The sets of neighbours that nodes have. A node without neighbours need not have an entry. -/
abbrev Neighbors := ExtTreeMap Node NodeSet

namespace Neighbors

/-- The neighbours of a node, in order. -/
def list (t : Neighbors) (n : Node) : List Node :=
  match t[n]? with
  | some s => s.toList
  | none => []

/-- Adds a neighbour of a node, with an entry for the node if there is none. -/
def add (t : Neighbors) (n neighbor : Node) : Neighbors :=
  t.insert n ((t.getD n ∅).insert neighbor)

end Neighbors

/-- A program by its commands, the nodes that follow each node, and the nodes before it. -/
structure Maps where
  commands : ExtTreeMap Node Command := ∅
  succs : Neighbors := ∅
  preds : Neighbors := ∅

namespace Maps

/-- The program without nodes. -/
def empty : Maps := {}

/-- Sets the command at a node. -/
def addCommand (p : Maps) (n : Node) (c : Command) : Maps :=
  { p with commands := p.commands.insert n c }

/-- Adds a control-flow edge. An end without a command is given `skip`. -/
def addEdge (p : Maps) (source target : Node) : Maps where
  commands := (p.commands.insertIfNew source .skip).insertIfNew target .skip
  succs := p.succs.add source target
  preds := p.preds.add target source

/-- Adds an edge from each node of a list to the next. -/
def addPath (p : Maps) (path : List Node) : Maps :=
  (path.zip path.tail).foldl (fun p e => p.addEdge e.1 e.2) p

/-- The command at a node. -/
def commandAt (p : Maps) (n : Node) : Option Command := p.commands[n]?

/-- The nodes, in order. -/
def nodes (p : Maps) : List Node := p.commands.keys

/-- The nodes with an edge to a node, in order. -/
def predecessors (p : Maps) (n : Node) : List Node := p.preds.list n

/-- The nodes with an edge from a node, in order. -/
def successors (p : Maps) (n : Node) : List Node := p.succs.list n

/-- How many nodes there are. -/
def size (p : Maps) : Nat := p.commands.size

/-- What an analysis sees: the nodes, the edges by which they follow each other, and the commands. -/
def view (p : Maps) : View where
  flow := .ofLists p.nodes (p.nodes.flatMap fun n => (p.successors n).map (n, ·))
  commandAt := p.commandAt

end Maps

end AlarmDischarge.Program
