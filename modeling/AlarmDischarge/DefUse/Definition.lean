import AlarmDischarge.Node

/-!
# `AlarmDischarge.DefUse.Definition`: definitions of variables

A definition (`Definition`) is a variable together with a node that gives it a value.

Main definitions: `Definition` and its lawful order, `Definitions`.
-/

set_option autoImplicit false

namespace AlarmDischarge

open Std

/-- A variable and a node that defines it. -/
structure Definition where
  name : String
  node : Node
deriving DecidableEq

namespace Definition

/-- Definitions compare by variable, then by node. -/
instance : Ord Definition := ⟨compareLex (compareOn name) (compareOn node)⟩

instance : TransOrd Definition :=
  inferInstanceAs (TransCmp (compareLex (compareOn name) (compareOn node)))

instance : LawfulEqOrd Definition where
  eq_of_compare {a b} h := by
    obtain ⟨hv, hn⟩ := Ordering.then_eq_eq.mp h
    cases a
    cases b
    exact congr (congrArg mk (LawfulEqOrd.eq_of_compare hv)) (LawfulEqOrd.eq_of_compare hn)

end Definition

/-- A finite set of definitions. -/
abbrev Definitions := ExtTreeSet Definition

end AlarmDischarge
