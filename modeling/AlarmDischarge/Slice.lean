import AlarmDischarge.NodeGraph.Ancestors
import AlarmDischarge.NodeGraph.Indexed
import AlarmDischarge.NodeGraph.Numbered
import AlarmDischarge.Journal

/-!
# `AlarmDischarge.Slice`: the part of a def-use graph that bears on a node

The slice at a target holds the nodes from which definitions lead to the target, by default only
those of the procedure of the target. The target always belongs to its slice, even if the graph does
not know it.

Main definitions: `NodeGraph.sliceNodes` (`slice_nodes`), `NodeGraph.slice` (`slice` of
`DugSlicer`), and the same with numbers and in storage, `NodeGraph.Numbered.slice` and
`IndexedGraph.slice`.
-/

set_option autoImplicit false

namespace AlarmDischarge

open Std

namespace NodeGraph

/-- The nodes of the slice at a target. -/
def sliceNodes (g : NodeGraph) (sameProcedureOnly : Bool) (target : Node) : NodeSet :=
  g.ancestors (fun m => !sameProcedureOnly || m.sameProcedure target) target

/-- The slice at a target. -/
def slice (g : NodeGraph) (sameProcedureOnly : Bool) (target : Node) : NodeGraph :=
  (g.project (g.sliceNodes sameProcedureOnly target)).addNode target

/-- Slicing leaves a note of how much is left. -/
def sliceJournal (g : NodeGraph) (target : Node) (sliced : NodeGraph) : Journal :=
  .single .debug ("slice at " ++ target.text ++ ": " ++ sliced.nodes.size.repr ++ " of " ++
    g.nodes.size.repr ++ " nodes, " ++ sliced.edges.size.repr ++ " edges")

namespace Numbered

/-- The part of a numbered graph inside a set, numbered in node order. -/
def project (g : Numbered) (keep : NodeSet) : Numbered := ofGraph (g.graph.project keep)

/-- The slice of a numbered graph, numbered in node order; a target that the graph does not know
comes last. -/
def slice (g : Numbered) (sameProcedureOnly : Bool) (target : Node) : Numbered :=
  (g.project (g.graph.sliceNodes sameProcedureOnly target)).addNode target

end Numbered

end NodeGraph

/-- The slice of a graph in storage: the part inside the nodes of the slice, built anew, and the
target. -/
def IndexedGraph.slice {γ : Type} [GraphStore γ] (g : IndexedGraph γ) (sameProcedureOnly : Bool)
    (target : Node) : IndexedGraph γ :=
  ((g.project (g.contents.sliceNodes sameProcedureOnly target)).addNode target).2

end AlarmDischarge
