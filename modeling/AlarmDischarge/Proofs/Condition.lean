import AlarmDischarge.Proofs.Propagation.Stored
import AlarmDischarge.Verifier

/-!
# `AlarmDischarge.Proofs.Condition`: the facts in the condition of an alarm

The condition of an alarm (`build_vc`) joins its obligation with what the propagation of facts
(`solve`) stores at the node of the alarm. This module compares that with the plain union of the
facts that the commands of the slice establish, which takes no propagation to compute:

* `condition_joins_slice_facts`: when the propagation has converged, the condition joins facts of the
  slice only, and all those whose opposite the slice does not establish. If the slice establishes no
  two opposites, the condition joins the plain union.
-/

set_option autoImplicit false

namespace AlarmDischarge.Verifier

open Std

variable {μ : Type} {v : Verifier} {g : NodeGraph} {p : Program.View} {alarm : Alarm} {f : Formula}

/-- The facts that the commands of the slice at an alarm establish, all taken together. -/
def sliceFacts (v : Verifier) (g : NodeGraph) (p : Program.View) (alarm : Alarm) : FactSet :=
  FiniteSet.union (g.sliceNodes v.settings.sameProcedureOnly alarm.node).toList
    (Propagation.generated p.commandAt)

theorem mem_sliceFacts :
    f ∈ v.sliceFacts g p alarm ↔
      ∃ m ∈ (v.sliceAt g alarm).nodes, f ∈ Propagation.generated p.commandAt m := by
  unfold sliceFacts sliceAt
  simp only [FiniteSet.mem_union, ExtTreeSet.mem_toList, NodeGraph.mem_nodes_slice]

/-- What arrives at the node of an alarm is established in the slice. -/
theorem mem_sliceFacts_of_mem
    (hf : f ∈ (v.propagation g p alarm).table.factsAt alarm.node) : f ∈ v.sliceFacts g p alarm := by
  have hnode : alarm.node ∈ (v.sliceAt g alarm).nodes :=
    NodeGraph.mem_nodes_slice.mpr NodeGraph.self_mem_sliceNodes
  exact mem_sliceFacts.mpr ((Propagation.carried_of_mem hf).exists_generated hnode)

/-- What is established in the slice, and its opposite not, arrives at the node of the alarm. -/
theorem mem_of_mem_sliceFacts (hconv : (v.propagation g p alarm).converged = true)
    (hf : f ∈ v.sliceFacts g p alarm) (hopp : f.negation ∉ v.sliceFacts g p alarm) :
    f ∈ (v.propagation g p alarm).table.factsAt alarm.node := by
  obtain ⟨m, hm, hgen⟩ := mem_sliceFacts.mp hf
  have hnone : ∀ n ∈ (v.sliceAt g alarm).nodes,
      f.negation ∉ Propagation.generated p.commandAt n :=
    fun n hn hneg => hopp (mem_sliceFacts.mpr ⟨n, hn, hneg⟩)
  -- The way from where the fact is established to the alarm stays inside the slice.
  have hpath := NodeGraph.leadsTo_slice (NodeGraph.mem_nodes_slice.mp hm)
  exact Propagation.mem_of_generated hconv hnone hm hgen hpath

/-- The condition that is judged for an alarm, and put into its verdict, joins the obligation with
facts. When the propagation has converged, each of them is established in the slice, and each fact of
the slice whose opposite is not established there is among them. So if the slice establishes no two
opposites, the condition joins the plain union of its facts, whatever the shape of the graph. -/
theorem condition_joins_slice_facts (v : Verifier) (g : NodeGraph) (p : Program.View)
    (memories : Memories μ) (alarm : Alarm)
    (hconv : (v.verdict g p memories alarm).converged = true) :
    (v.verdict g p memories alarm).condition = some (v.condition g p alarm).text ∧
    (v.verdict g p memories alarm).discharged = v.decision.isValid (v.condition g p alarm) ∧
    (∃ facts : FactSet,
      v.condition g p alarm = alarm.hazard.obligation.conjoin facts.toList ∧
      (∀ f ∈ facts, f ∈ v.sliceFacts g p alarm) ∧
      ∀ f ∈ v.sliceFacts g p alarm, f.negation ∉ v.sliceFacts g p alarm → f ∈ facts) ∧
    ((∀ f ∈ v.sliceFacts g p alarm, f.negation ∉ v.sliceFacts g p alarm) →
      v.condition g p alarm =
        alarm.hazard.obligation.conjoin (v.sliceFacts g p alarm).toList) := by
  refine ⟨rfl, rfl, ⟨(v.propagation g p alarm).table.factsAt alarm.node, rfl, ?_, ?_⟩, ?_⟩
  · intro f hf
    exact mem_sliceFacts_of_mem hf
  · intro f hf hopp
    exact mem_of_mem_sliceFacts hconv hf hopp
  · intro hopp
    have hunion : (v.propagation g p alarm).table.factsAt alarm.node = v.sliceFacts g p alarm :=
      ExtTreeSet.ext_mem fun {f} =>
        ⟨mem_sliceFacts_of_mem, fun hf => mem_of_mem_sliceFacts hconv hf (hopp f hf)⟩
    rw [← hunion]
    rfl

/-! ### A loop over an array

`a := alloc([n])`, and then over and over `assume(i < n)` and `x := a[i]`. The assumption refines
what it reads itself, so the def-use graph has a loop. -/

/-- A program that reads an array in a loop, up to its length. -/
def arrayLoop : Program :=
  let point (i : UInt64) : Node := ⟨"main", i⟩
  Program.empty
    |>.addCommand (point 0) (.alloc (.var (.localInt "a")) (.var (.localInt "n")))
    |>.addCommand (point 1) (.assume (.binary .lt (.var (.localInt "i")) (.var (.localInt "n"))))
    |>.addCommand (point 2) (.assign (.var (.localInt "x"))
      (.lval (.element (.localInt "a") (.var (.localInt "i")))))
    |>.addPath [point 0, point 1, point 2, point 1]

/-- The access of the array in the loop. -/
def arrayLoopAlarm : Alarm where
  node := ⟨"main", 2⟩
  hazard := .element (.var (.localInt "a")) (.var (.localInt "i")) {}
  status := .unproven

/-- In the loop the condition joins the length of the array and the bound on the subscript with the
obligation. -/
theorem condition_arrayLoop :
    (verdict (μ := Unit) {} arrayLoop.view.defUse arrayLoop.view ⟨∅, ∅⟩ arrayLoopAlarm).converged
        = true ∧
      condition {} arrayLoop.view.defUse arrayLoop.view arrayLoopAlarm =
        .and (.and (.lt (.var "i") (.arraySize (.var "a")))
          (.eq (.arraySize (.var "a")) (.var "n"))) (.lt (.var "i") (.var "n")) := by
  have hconv : (verdict (μ := Unit) {} arrayLoop.view.defUse arrayLoop.view ⟨∅, ∅⟩
      arrayLoopAlarm).converged = true := by
    decide +kernel
  have hfacts : (sliceFacts {} arrayLoop.view.defUse arrayLoop.view arrayLoopAlarm).toList =
      [.eq (.arraySize (.var "a")) (.var "n"), .lt (.var "i") (.var "n")] := by
    decide +kernel
  obtain ⟨-, -, -, hunion⟩ := condition_joins_slice_facts {} _ _ _ _ hconv
  refine ⟨hconv, ?_⟩
  rw [hunion, hfacts]
  · rfl
  · simp only [← ExtTreeSet.mem_toList, hfacts]
    decide

end AlarmDischarge.Verifier
