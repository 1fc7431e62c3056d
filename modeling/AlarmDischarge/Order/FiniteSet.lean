import Std.Data.ExtTreeSet

/-!
# `AlarmDischarge.Order.FiniteSet`: finite sets in order

Finite sets of a lawfully ordered type are `Std.ExtTreeSet`s: two sets with the same elements are
equal, and their elements are listed in increasing order. This module adds the few operations the
analyses need.

Main definitions and statements:

* `FiniteSet.isSubset`, with `isSubset_iff`;
* `FiniteSet.union`, the union of a family over a list, with `mem_union`;
* `FiniteSet.mem_filter`, membership in a filtered set;
* `FiniteSet.nodup_toList`: a listing has no repetitions.
-/

set_option autoImplicit false

namespace AlarmDischarge.FiniteSet

open Std

variable {α β : Type} [Ord α] [TransOrd α]

/-- Whether every element of one set is in another. -/
def isSubset (s t : ExtTreeSet α) : Bool := s.toList.all t.contains

/-- The union of the sets that the elements of a list stand for. -/
def union (xs : List β) (family : β → ExtTreeSet α) : ExtTreeSet α :=
  xs.foldl (fun s x => s ∪ family x) ∅

@[simp]
theorem isSubset_iff [LawfulEqOrd α] {s t : ExtTreeSet α} : isSubset s t ↔ ∀ a ∈ s, a ∈ t := by
  simp [isSubset]

@[simp]
theorem mem_filter [LawfulEqOrd α] {s : ExtTreeSet α} {p : α → Bool} {a : α} :
    a ∈ s.filter p ↔ a ∈ s ∧ p a := by
  simp [ExtTreeSet.mem_filter, ExtTreeSet.get_eq]

/-- A union taken step by step holds what it started with and what each step adds. -/
theorem mem_foldl_union {xs : List β} {family : β → ExtTreeSet α} {s : ExtTreeSet α} {a : α} :
    a ∈ xs.foldl (fun s x => s ∪ family x) s ↔ a ∈ s ∨ ∃ x ∈ xs, a ∈ family x := by
  induction xs generalizing s with
  | nil => simp
  | cons x xs ih => rw [List.foldl_cons, ih]; simp [or_assoc]

@[simp]
theorem mem_union {xs : List β} {family : β → ExtTreeSet α} {a : α} :
    a ∈ union xs family ↔ ∃ x ∈ xs, a ∈ family x := by
  simp [union, mem_foldl_union]

/-- A set that is not empty has an element. -/
theorem exists_mem_of_ne_empty {s : ExtTreeSet α} (h : s ≠ ∅) : ∃ a, a ∈ s := by
  by_cases hs : ∃ a, a ∈ s
  · exact hs
  · exact absurd (ExtTreeSet.eq_empty_iff_forall_not_mem.mpr fun a ha => hs ⟨a, ha⟩) h

/-- The listing of a set names no element twice. -/
theorem nodup_toList [LawfulEqOrd α] {s : ExtTreeSet α} : s.toList.Nodup :=
  ExtTreeSet.distinct_toList.imp fun {a b} (h : ¬compare a b = .eq) (heq : a = b) =>
    h (heq ▸ ReflOrd.compare_self)

end AlarmDischarge.FiniteSet
