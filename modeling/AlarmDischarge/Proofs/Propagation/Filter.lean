import AlarmDischarge.Proofs.Propagation.Cancellation
import AlarmDischarge.Proofs.Propagation.Reach

/-!
# `AlarmDischarge.Proofs.Propagation.Filter`: what a visit drops

A visit filters the facts that are available at its node in two stages (`filter_contradictions`):
first it drops the facts that meet their opposite, then the facts that are false by their shape. The
second stage has something to do on some sets of facts, but not on those of a run. Every fact of a
run was generated by a command, and commands generate no fact that is false by its shape.

* `FactSet.consistentPart_eq_unopposed_iff`: when the second stage has nothing to do;
* `transfer_eq_unopposed`: this is so at every visit of a run;
* `visits_drop_opposites_only`: so a visit stores what is available and unopposed.
-/

set_option autoImplicit false

namespace AlarmDischarge

open Std

namespace FactSet

/-- What the first stage leaves: the facts of a set whose opposite is not in it. -/
def unopposed (facts : FactSet) : FactSet := facts.filter fun f => !facts.contains f.negation

theorem mem_unopposed {facts : FactSet} {f : Formula} :
    f ∈ facts.unopposed ↔ f ∈ facts ∧ f.negation ∉ facts := by
  unfold unopposed
  rw [FiniteSet.mem_filter, Bool.not_eq_true', ← Bool.not_eq_true]
  rfl

/-- The two stages, one after the other. -/
theorem consistentPart_eq_filter_unopposed (facts : FactSet) :
    facts.consistentPart = facts.unopposed.filter fun f => !f.isSelfContradictory := by
  refine ExtTreeSet.ext_mem fun f => ?_
  unfold consistentPart unopposed
  rw [FiniteSet.mem_filter, FiniteSet.mem_filter, FiniteSet.mem_filter, Bool.and_eq_true, and_assoc]

/-- The second stage has nothing to do exactly if the first leaves no fact that is false by its
shape. -/
theorem consistentPart_eq_unopposed_iff {facts : FactSet} :
    facts.consistentPart = facts.unopposed ↔
      ∀ f ∈ facts.unopposed, f.isSelfContradictory = false := by
  rw [consistentPart_eq_filter_unopposed, ExtTreeSet.filter_eq_self_iff]
  simp only [Bool.not_eq_true', ExtTreeSet.get_eq]

/-- There are sets on which it has. -/
example : FactSet.unopposed {Formula.false} = {Formula.false} ∧
    FactSet.consistentPart {Formula.false} = ∅ := by
  decide +kernel

end FactSet

namespace Propagation

variable {g : NodeGraph} {commandAt : Node → Option Command} {n : Node} {f : Formula} {visits : Nat}

/-- The facts that a visit of a node filters, after a number of visits. -/
def availableAt (g : NodeGraph) (commandAt : Node → Option Command) (visits : Nat) (n : Node) :
    FactSet :=
  incoming g (propagate g commandAt visits).table n ∪ generated commandAt n

/-- Whatever a visit filters was generated somewhere, so none of it is false by its shape. -/
theorem isSelfContradictory_of_mem_availableAt (hf : f ∈ availableAt g commandAt visits n) :
    f.isSelfContradictory = false := by
  unfold availableAt at hf
  rw [ExtTreeSet.mem_union_iff, ← available_iff] at hf
  exact isSelfContradictory_of_available hf

/-- So a visit finds all that is available and unopposed. -/
theorem transfer_eq_unopposed :
    transfer g commandAt (propagate g commandAt visits).table n =
      (availableAt g commandAt visits n).unopposed := by
  refine FactSet.consistentPart_eq_unopposed_iff.mpr ?_
  intro f hf
  exact isSelfContradictory_of_mem_availableAt (FactSet.mem_unopposed.mp hf).1

/-- One visit more adds what it finds at the node whose turn it is. -/
theorem factsAt_succ_of_head
    (hturn : ((worklist g commandAt).run visits (start g commandAt)).queue.head? = some n) :
    (propagate g commandAt (visits + 1)).table.factsAt n =
      (propagate g commandAt visits).table.factsAt n ∪
        transfer g commandAt (propagate g commandAt visits).table n := by
  refine ExtTreeSet.ext_mem fun f => ?_
  rw [mem_factsAt_succ, ExtTreeSet.mem_union_iff]
  unfold FindsAt
  rw [and_iff_right hturn]

/-- A visit drops facts because they are opposed, and for no other reason. No formula is its own
opposite, so the formulas that are false by their shape are the two ways to write falsehood
outright, and no command generates one of these. Therefore, on any graph, with any commands and
after any number of visits, what is available at a node holds none of them, a visit finds there all
that is available except for what meets its opposite, and this is what it adds to the facts stored
at its node. -/
theorem visits_drop_opposites_only :
    (∀ f : Formula, f ≠ f.negation) ∧
    (∀ f : Formula, f.isSelfContradictory = true ↔ f = .false ∨ f = .not .true) ∧
    (∀ (c : Command) (f : Formula), f ∈ c.facts → f.isSelfContradictory = false) ∧
    ∀ (g : NodeGraph) (commandAt : Node → Option Command) (visits : Nat) (n : Node),
      let available := incoming g (propagate g commandAt visits).table n ∪ generated commandAt n
      (∀ f ∈ available, f.isSelfContradictory = false) ∧
      transfer g commandAt (propagate g commandAt visits).table n = available.unopposed ∧
      (((worklist g commandAt).run visits (start g commandAt)).queue.head? = some n →
        (propagate g commandAt (visits + 1)).table.factsAt n =
          (propagate g commandAt visits).table.factsAt n ∪ available.unopposed) := by
  refine ⟨Formula.ne_negation, fun f => Formula.isSelfContradictory_iff, ?_, ?_⟩
  · intro c f hf
    exact Command.not_isSelfContradictory hf
  · intro g commandAt visits n available
    refine ⟨?_, transfer_eq_unopposed, ?_⟩
    · intro f hf
      exact isSelfContradictory_of_mem_availableAt hf
    · intro hturn
      rw [factsAt_succ_of_head hturn, transfer_eq_unopposed]
      rfl

/-- On the third visit of the run that assumes `!(!(i < n))` early and `!(i < n)` late, the turn is
that of the early node. Both facts are available there, and the visit drops the first. -/
theorem third_visit_of_belowBound :
    let commandAt := (twiceThenOnce belowBound).commandAt
    let once : Formula := .lt (.var "i") (.var "n")
    (.not once ∈ (Command.assume (.unary .not belowBound)).facts ∧
      (Formula.not once).isSelfContradictory = false) ∧
    ((worklist backEdge commandAt).run 2 (start backEdge commandAt)).queue.head? = some early ∧
    transfer backEdge commandAt (propagate backEdge commandAt 2).table early = {.not once} ∧
    (propagate backEdge commandAt 3).table.factsAt early =
      (propagate backEdge commandAt 2).table.factsAt early ∪ {.not once} := by
  intro commandAt once
  have hmem : .not once ∈ (Command.assume (.unary .not belowBound)).facts :=
    Command.mem_facts.mpr (by decide)
  have hturn : ((worklist backEdge commandAt).run 2 (start backEdge commandAt)).queue.head? =
      some early := by
    decide +kernel
  have hleft : (availableAt backEdge commandAt 2 early).unopposed = {.not once} := by
    decide +kernel
  obtain ⟨-, -, hfacts, hrun⟩ := visits_drop_opposites_only
  obtain ⟨-, hfound, hstored⟩ := hrun backEdge commandAt 2 early
  refine ⟨⟨hmem, hfacts _ _ hmem⟩, hturn, ?_, ?_⟩
  · exact hfound.trans hleft
  · rw [hstored hturn]
    exact congrArg _ hleft

end Propagation

end AlarmDischarge
