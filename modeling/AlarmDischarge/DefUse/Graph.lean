import AlarmDischarge.DefUse.Reaching
import AlarmDischarge.Journal

/-!
# `AlarmDischarge.DefUse.Graph`: def-use graphs

The def-use graph of a program has an edge from a definition to every node that reads the variable
while the definition is alive.

Main definitions: `Program.View.defUse` (`build` of `ReachingDefBuilder`),
`Program.View.defUseJournal`.
-/

set_option autoImplicit false

namespace AlarmDischarge

open Std

namespace Program.View

/-- The nodes whose definitions a node reads. -/
def sources (v : View) (exits : Reaching.Exits) (n : Node) : List Node :=
  match v.commandAt n with
  | some c =>
    ((Reaching.entry v exits n).toList.filter fun d => c.uses.contains d.name).map
      Definition.node
  | none => []

/-- The def-use graph of a program. -/
def defUse (v : View) : NodeGraph :=
  let exits := Reaching.exits v
  .ofLists v.flow.nodes.toList
    (v.flow.nodes.toList.flatMap fun n => (v.sources exits n).map fun d => (d, n))

/-- Building a def-use graph leaves a note of its size. -/
def defUseJournal (g : NodeGraph) : Journal :=
  .single .debug ("def-use graph: " ++ g.nodes.size.repr ++ " nodes, " ++ g.edges.size.repr ++
    " edges")

end Program.View

end AlarmDischarge
