import AlarmDischarge.Proofs.Propagation.Stored
import AlarmDischarge.Verifier

/-!
# `AlarmDischarge.Proofs.Influence`: what a verdict depends on

An alarm is judged by its slice alone (`verify_alarm`). This module says what that means for the two
things a verdict is made from, the graph and the commands:

* `Propagation.propagate_congr`: moving facts along a graph reads the commands of its nodes and no
  others;
* `Verifier.verdict_depends_on_slice`: a graph may be extended by edges that do not lead into the
  slice, or that lead into it from where it does not go, and the commands outside the slice may be
  any, without a change to any part of the verdict.
-/

set_option autoImplicit false

namespace AlarmDischarge

open Std

namespace Propagation

variable {g : NodeGraph} {commandAt commandAt' : Node → Option Command}

theorem graph_worklist : (worklist g commandAt).graph = g := rfl

/-- A run begins with the same nodes waiting and nothing stored, whatever the commands are. -/
theorem start_congr : start g commandAt' = start g commandAt := by
  unfold start Worklist.start
  rw [graph_worklist, graph_worklist]

theorem visit_congr {n : Node} (h : commandAt' n = commandAt n) (t : FactTable) :
    visit g commandAt' n t = visit g commandAt n t := by
  have hgen : generated commandAt' n = generated commandAt n := by
    unfold generated
    rw [h]
  unfold visit transfer
  rw [hgen]

/-- Two readings of the commands that agree on the nodes of a graph move the same facts along it, in
the same visits. -/
theorem propagate_congr (h : ∀ n ∈ g.nodes, commandAt' n = commandAt n) (cap : Nat) :
    propagate g commandAt' cap = propagate g commandAt cap := by
  have hgraph : (worklist g commandAt').graph = (worklist g commandAt).graph :=
    graph_worklist.trans graph_worklist.symm
  have hrun : (worklist g commandAt').run cap (start g commandAt) =
      (worklist g commandAt).run cap (start g commandAt) :=
    Worklist.run_congr hgraph (fun n hn t => visit_congr (h n hn) t)
      (Worklist.inside_start (blank g)) cap
  unfold propagate
  rw [start_congr, hrun]

end Propagation

namespace Verifier

/-- A verdict depends on nothing outside the slice at its alarm. Let one graph have all the edges of
another. Any further edge must not lead into the slice of the smaller graph, or else must lead out
of another procedure, if slices stop at the border of the procedure. Let the commands agree on the
slice. Then the verdict is the same: the condition that was judged, what was decided, the size of
the slice, the number of visits, and whether the propagation converged. Nodes may be added as well,
and the memories may be any. -/
theorem verdict_depends_on_slice {μ ν : Type} (v : Verifier) (g g' : NodeGraph)
    (p p' : Program.View) (memories : Memories μ) (memories' : Memories ν) (alarm : Alarm)
    (hold : ∀ e ∈ g.edges, e ∈ g'.edges)
    (hnew : ∀ e ∈ g'.edges, e ∉ g.edges →
      e.target ∉ g.sliceNodes v.settings.sameProcedureOnly alarm.node ∨
        v.settings.sameProcedureOnly = true ∧ e.source.procedure ≠ alarm.node.procedure)
    (hcommands : ∀ n ∈ g.sliceNodes v.settings.sameProcedureOnly alarm.node,
      p'.commandAt n = p.commandAt n) :
    v.verdict g' p' memories' alarm = v.verdict g p memories alarm := by
  -- An edge into the slice from a node that it may enter is not among the further ones.
  have hedges : ∀ m n, n ∈ g.sliceNodes v.settings.sameProcedureOnly alarm.node →
      NodeGraph.scope v.settings.sameProcedureOnly alarm.node m →
      (⟨m, n⟩ ∈ g'.edges ↔ ⟨m, n⟩ ∈ g.edges) := by
    intro m n hn hm
    refine ⟨fun hedge => ?_, hold _⟩
    by_cases hmem : ⟨m, n⟩ ∈ g.edges
    · exact hmem
    · rcases hnew _ hedge hmem with hout | ⟨honly, hproc⟩
      · exact absurd hn hout
      · have hsame : m.procedure = alarm.node.procedure := by
          simpa [NodeGraph.scope, honly, Node.sameProcedure] using hm
        exact absurd hsame hproc
  have hslice : v.sliceAt g' alarm = v.sliceAt g alarm := NodeGraph.slice_congr hedges
  have hprop : v.propagation g' p' alarm = v.propagation g p alarm := by
    unfold propagation
    rw [hslice]
    refine Propagation.propagate_congr (fun n hn => hcommands n ?_) _
    exact NodeGraph.mem_nodes_slice.mp hn
  simp only [verdict, hslice, hprop]

/-! ### A program that grows around a slice

A variable is assumed to be below another and used as a subscript. Later the variable is stored and
read elsewhere, and another procedure assigns it. -/

/-- An assumption on a subscript and the access it bears on. -/
def guardedAccess : Program :=
  let point (i : UInt64) : Node := ⟨"main", i⟩
  Program.empty
    |>.addCommand (point 0) (.assume (.binary .lt (.var (.localInt "i")) (.var (.localInt "n"))))
    |>.addCommand (point 1) (.assign (.var (.localInt "x"))
      (.lval (.element (.localInt "a") (.var (.localInt "i")))))

/-- The assumption bears on the access. -/
def guardedAccessGraph : NodeGraph := .ofLists [] [(⟨"main", 0⟩, ⟨"main", 1⟩)]

/-- The same commands with others around them. -/
def guardedAccessInside : Program :=
  guardedAccess
    |>.addCommand ⟨"main", 2⟩ (.assign (.var (.localInt "y")) (.var (.localInt "x")))
    |>.addCommand ⟨"helper", 0⟩ (.assign (.var (.localInt "i")) (.int 7))

/-- Edges that leave the slice, go on behind it, and come back from another procedure. -/
def guardedAccessInsideGraph : NodeGraph :=
  .ofLists [⟨"main", 9⟩] [(⟨"main", 0⟩, ⟨"main", 1⟩), (⟨"main", 1⟩, ⟨"main", 2⟩),
    (⟨"main", 2⟩, ⟨"helper", 0⟩), (⟨"helper", 0⟩, ⟨"main", 0⟩), (⟨"helper", 0⟩, ⟨"main", 1⟩)]

/-- The access that is judged. -/
def guardedAccessAlarm : Alarm where
  node := ⟨"main", 1⟩
  hazard := .element (.var (.localInt "a")) (.var (.localInt "i")) {}
  status := .unproven

/-- What stands around the access does not change its verdict. -/
theorem verdict_guardedAccess :
    guardedAccessGraph ≠ guardedAccessInsideGraph ∧
      verdict (μ := Unit) {} guardedAccessInsideGraph guardedAccessInside.view ⟨∅, ∅⟩
          guardedAccessAlarm =
        verdict (μ := Unit) {} guardedAccessGraph guardedAccess.view ⟨∅, ∅⟩ guardedAccessAlarm := by
  have hold : ∀ e ∈ guardedAccessGraph.edges.toList, e ∈ guardedAccessInsideGraph.edges := by
    decide +kernel
  have hnew : ∀ e ∈ guardedAccessInsideGraph.edges.toList, e ∉ guardedAccessGraph.edges →
      e.target ∉ guardedAccessGraph.sliceNodes true ⟨"main", 1⟩ ∨
        true = true ∧ e.source.procedure ≠ "main" := by
    decide +kernel
  have hcommands : ∀ n ∈ (guardedAccessGraph.sliceNodes true ⟨"main", 1⟩).toList,
      guardedAccessInside.view.commandAt n = guardedAccess.view.commandAt n := by
    decide +kernel
  refine ⟨by decide +kernel, verdict_depends_on_slice {} _ _ _ _ _ _ _ ?_ ?_ ?_⟩
  · exact fun e he => hold e (ExtTreeSet.mem_toList.mpr he)
  · exact fun e he => hnew e (ExtTreeSet.mem_toList.mpr he)
  · exact fun n hn => hcommands n (ExtTreeSet.mem_toList.mpr hn)

end Verifier

end AlarmDischarge
