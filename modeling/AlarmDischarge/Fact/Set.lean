import AlarmDischarge.Logic.Formula

/-!
# `AlarmDischarge.Fact.Set`: sets of facts

A fact is a formula taken to hold at a node. Facts that meet their opposite are dropped on both
sides: neither can be relied on.

Main definitions: `FactSet`, `FactSet.reconcile` (`filter_contradictions`),
`FactSet.isContradictionFree` (`is_contradiction_free`).
-/

set_option autoImplicit false

namespace AlarmDischarge

open Std

/-- A finite set of facts, listed in formula order. -/
abbrev FactSet := ExtTreeSet Formula

namespace FactSet

/-- The facts of a set whose opposite is not in it and that are not false by their shape. -/
def consistentPart (facts : FactSet) : FactSet :=
  facts.filter fun f => !facts.contains f.negation && !f.isSelfContradictory

/-- Joins the facts that arrive at a node with those generated there, and keeps what nothing among
them contradicts. -/
def reconcile (incoming generated : FactSet) : FactSet := (incoming ∪ generated).consistentPart

/-- Whether no fact of a set meets its opposite there. -/
def isContradictionFree (facts : FactSet) : Bool :=
  facts.toList.all fun f => !facts.contains f.negation

end FactSet

end AlarmDischarge
