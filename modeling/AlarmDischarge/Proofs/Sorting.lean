import AlarmDischarge.Order.Sorting
import AlarmDischarge.Order.FiniteSet

/-!
# `AlarmDischarge.Proofs.Sorting`: a listing in order is determined by what it lists

* `mem_sort`, `mem_dropRepeats`: neither step changes what is listed;
* `increasing_sort`: without repetitions, sorting gives a strictly increasing list;
* `increasing_dropRepeats`: dropping repeats from a sorted list gives one whatever was repeated;
* `eq_of_increasing`, `eq_toList_of_increasing`: there is only one such list for given elements, so
  it does not tell in which order, and how often, they were collected.
-/

set_option autoImplicit false

namespace AlarmDischarge.Listing

open Std

variable {α : Type}

theorem mem_dropRepeats [DecidableEq α] {xs : List α} {a : α} : a ∈ dropRepeats xs ↔ a ∈ xs := by
  fun_induction dropRepeats xs with
  | case1 => rfl
  | case2 b => rfl
  | case3 b xs ih => rw [ih, List.mem_cons, List.mem_cons, List.mem_cons, or_self_left]
  | case4 b c xs hne ih => rw [List.mem_cons, ih, ← List.mem_cons]

variable [Ord α]

/-- Strictly increasing. -/
def Increasing (xs : List α) : Prop := xs.Pairwise fun a b => compare a b = .lt

theorem mem_sort {xs : List α} {a : α} : a ∈ sort xs ↔ a ∈ xs := List.mem_mergeSort

theorem pairwise_sort [TransOrd α] (xs : List α) :
    (sort xs).Pairwise fun a b => (compare a b).isLE = true := by
  have htrans : ∀ a b c : α, (compare a b).isLE = true → (compare b c).isLE = true →
      (compare a c).isLE = true := fun _ _ _ => TransCmp.isLE_trans
  refine List.pairwise_mergeSort htrans ?_ xs
  intro a b
  have hswap : compare b a = (compare a b).swap := OrientedCmp.eq_swap
  rw [hswap]
  cases compare a b with
  | lt => rfl
  | eq => rfl
  | gt => rfl

/-- An element that is at most another is less than it or equal to it. -/
theorem compare_eq_lt [LawfulEqOrd α] {a b : α} (hle : (compare a b).isLE = true) (hne : a ≠ b) :
    compare a b = .lt := by
  cases h : compare a b with
  | lt => rfl
  | eq => exact absurd (LawfulEqOrd.eq_of_compare h) hne
  | gt =>
    rw [h] at hle
    cases hle

variable [TransOrd α] [LawfulEqOrd α]

theorem increasing_sort {xs : List α} (h : xs.Nodup) : Increasing (sort xs) := by
  have hnodup : (sort xs).Nodup := (List.mergeSort_perm xs _).nodup_iff.mpr h
  exact (pairwise_sort xs).imp₂ (fun _ _ hle hne => compare_eq_lt hle hne) hnodup

/-- In a sorted list all that is repeated is repeated at once. -/
theorem increasing_dropRepeats [DecidableEq α] {xs : List α}
    (h : xs.Pairwise fun a b => (compare a b).isLE = true) : Increasing (dropRepeats xs) := by
  fun_induction dropRepeats xs with
  | case1 => exact List.Pairwise.nil
  | case2 a => exact List.pairwise_singleton _ a
  | case3 b xs ih => exact ih h.tail
  | case4 a b xs hne ih =>
    refine List.Pairwise.cons ?_ (ih h.tail)
    intro c hc
    have hlt : compare a b = .lt := compare_eq_lt (List.rel_of_pairwise_cons h List.mem_cons_self) hne
    -- What is left of the tail begins with `b`, and everything in it is at least `b`.
    rcases List.mem_cons.mp (mem_dropRepeats.mp hc) with rfl | hcs
    · exact hlt
    · exact TransCmp.lt_of_lt_of_isLE hlt (List.rel_of_pairwise_cons h.tail hcs)

/-- Two strictly increasing lists of the same elements are equal. -/
theorem eq_of_increasing {xs ys : List α} (hxs : Increasing xs) (hys : Increasing ys)
    (h : ∀ a, a ∈ xs ↔ a ∈ ys) : xs = ys := by
  have hnodup : ∀ {zs : List α}, Increasing zs → zs.Nodup := fun hzs =>
    hzs.imp fun {a b} hlt heq => by
      rw [heq, ReflOrd.compare_self] at hlt
      cases hlt
  refine List.Perm.eq_of_pairwise ?_ hxs hys
    ((List.perm_ext_iff_of_nodup (hnodup hxs) (hnodup hys)).mpr h)
  intro a b _ _ hab hba
  exact absurd hba (OrientedCmp.not_lt_of_lt hab)

/-- A strictly increasing list of the elements of a set is its listing. -/
theorem eq_toList_of_increasing {xs : List α} {s : ExtTreeSet α} (hxs : Increasing xs)
    (h : ∀ a, a ∈ xs ↔ a ∈ s) : xs = s.toList :=
  eq_of_increasing hxs ExtTreeSet.ordered_toList fun a => (h a).trans ExtTreeSet.mem_toList.symm

end AlarmDischarge.Listing
