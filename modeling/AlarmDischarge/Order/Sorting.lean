import Std.Data.ExtTreeSet

/-!
# `AlarmDischarge.Order.Sorting`: listings in order

A listing that is asked for in order is collected first, then sorted, then freed of repetitions
(`sort`, `dedup`). Equal elements of a sorted list stand next to each other, so it is enough to
compare neighbours.

Main definitions: `Listing.sort`, `Listing.dropRepeats`.
-/

set_option autoImplicit false

namespace AlarmDischarge.Listing

variable {α : Type}

/-- The elements of a list in increasing order, with their repetitions. -/
def sort [Ord α] (xs : List α) : List α := xs.mergeSort fun a b => (compare a b).isLE

/-- Drops every element that is followed by an equal one. -/
def dropRepeats [DecidableEq α] : List α → List α
  | [] => []
  | [a] => [a]
  | a :: b :: xs => if a = b then dropRepeats (b :: xs) else a :: dropRepeats (b :: xs)

end AlarmDischarge.Listing
