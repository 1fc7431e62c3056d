import Std.Data.ExtTreeSet

/-!
# `AlarmDischarge.Node`: program points

A node is a program point: a procedure (`pid`) and a position inside it (`index`). Nodes are ordered
by procedure name and then by position, and every listing of nodes follows that order.

Main definitions: `Node`, `Node.text`, `Node.sameProcedure`, `NodeSet`, and the lawful order.
-/

set_option autoImplicit false

namespace AlarmDischarge

open Std

/-- A program point: the procedure it belongs to and its number there. -/
structure Node where
  procedure : String
  index : UInt64
deriving DecidableEq

namespace Node

/-- Nodes compare by procedure name, then by number. -/
instance : Ord Node := ⟨compareLex (compareOn procedure) (compareOn index)⟩

instance : TransOrd Node :=
  inferInstanceAs (TransCmp (compareLex (compareOn procedure) (compareOn index)))

instance : LawfulEqOrd Node where
  eq_of_compare {a b} h := by
    obtain ⟨hp, hi⟩ := Ordering.then_eq_eq.mp h
    cases a
    cases b
    exact congr (congrArg mk (LawfulEqOrd.eq_of_compare hp)) (LawfulEqOrd.eq_of_compare hi)

/-- The written form of a node: procedure, hyphen, number. -/
def text (n : Node) : String := n.procedure ++ "-" ++ n.index.toNat.repr

/-- Whether two nodes belong to one procedure. -/
def sameProcedure (m n : Node) : Bool := m.procedure == n.procedure

end Node

/-- A finite set of nodes. -/
abbrev NodeSet := ExtTreeSet Node

end AlarmDischarge
