import AlarmDischarge.Order.FiniteSet
import Mathlib.Data.List.Dedup

/-!
# `AlarmDischarge.Proofs.FiniteSet`: sizes of finite sets, and what updates leave in sets and maps

A set that grows inside a finite set can only do so finitely often. The first two statements here are
what the bounds on the number of visits of an analysis rest on:

* `size_le_of_subset`: a subset has no more elements;
* `size_lt_of_subset_of_ne`: a subset that is not the whole set has fewer;
* `size_eq_length_dedup`: a set that holds what a list names has as many elements as the list names
  different ones;
* `getElem?_insert_eq_ite`: an update of a map changes the value of one key;
* `getElem?_insertIfNew_eq_or`: a default changes the value of one key, if it has none;
* `holds_foldl_iff`: where each step adds something and drops nothing, a run has what its steps add.
-/

set_option autoImplicit false

namespace AlarmDischarge.FiniteSet

open Std

variable {α : Type} [Ord α] [TransOrd α] [LawfulEqOrd α]

/-- A subset is what is left of the larger set when everything outside the subset is dropped. -/
theorem filter_contains_of_subset {s t : ExtTreeSet α} (h : ∀ a ∈ s, a ∈ t) :
    t.filter s.contains = s := by
  refine ExtTreeSet.ext_mem fun a => ?_
  rw [mem_filter]
  constructor
  · intro ha
    exact ha.2
  · intro ha
    exact ⟨h a ha, ha⟩

/-- A subset has no more elements than the set. -/
theorem size_le_of_subset {s t : ExtTreeSet α} (h : ∀ a ∈ s, a ∈ t) : s.size ≤ t.size := by
  rw [← filter_contains_of_subset h]
  exact ExtTreeSet.size_filter_le_size

/-- A subset other than the set itself has fewer elements. -/
theorem size_lt_of_subset_of_ne {s t : ExtTreeSet α} (h : ∀ a ∈ s, a ∈ t) (hne : s ≠ t) :
    s.size < t.size := by
  refine Nat.lt_of_le_of_ne (size_le_of_subset h) fun hsize => hne ?_
  -- Dropping nothing changes no size, and dropping something does.
  rw [← filter_contains_of_subset h] at hsize ⊢
  rw [ExtTreeSet.size_filter_eq_size_iff] at hsize
  rw [ExtTreeSet.filter_eq_self_iff]
  exact hsize

/-- A set has as many elements as there are different ones in a list that names them all, in any order
and with any repetitions. -/
theorem size_eq_length_dedup [DecidableEq α] {s : ExtTreeSet α} {xs : List α}
    (h : ∀ a, a ∈ s ↔ a ∈ xs) : s.size = xs.dedup.length := by
  have hperm : s.toList.Perm xs.dedup := by
    rw [List.perm_ext_iff_of_nodup nodup_toList xs.nodup_dedup]
    intro a
    rw [ExtTreeSet.mem_toList, List.mem_dedup, h]
  rw [← ExtTreeSet.length_toList, hperm.length_eq]

/-- An update of a map gives one key a new value and leaves every other key alone. -/
theorem getElem?_insert_eq_ite [DecidableEq α] {β : Type} {m : ExtTreeMap α β} {a k : α} {b : β} :
    (m.insert k b)[a]? = if a = k then some b else m[a]? := by
  rw [ExtTreeMap.getElem?_insert]
  by_cases h : a = k
  · rw [if_pos h, if_pos (by rw [h]; exact ReflOrd.compare_self)]
  · rw [if_neg h, if_neg fun hc => h (LawfulEqOrd.eq_of_compare hc).symm]

/-- A default gives one key a value unless it has one, and leaves every other key alone. -/
theorem getElem?_insertIfNew_eq_or [DecidableEq α] {β : Type} {m : ExtTreeMap α β} {a k : α} {b : β} :
    (m.insertIfNew k b)[a]? = m[a]?.or (if a = k then some b else none) := by
  rw [ExtTreeMap.getElem?_insertIfNew]
  by_cases h : a = k
  · subst h
    rw [if_pos rfl]
    by_cases hmem : a ∈ m
    · obtain ⟨c, hc⟩ := Option.isSome_iff_exists.mp (ExtTreeMap.mem_iff_isSome_getElem?.mp hmem)
      rw [if_neg fun hnew => hnew.2 hmem, hc, Option.some_or]
    · rw [if_pos ⟨ReflOrd.compare_self, hmem⟩, ExtTreeMap.getElem?_eq_none hmem, Option.none_or]
  · rw [if_neg h, if_neg fun hnew => h (LawfulEqOrd.eq_of_compare hnew.1).symm, Option.or_none]

/-- Where each step of a run makes `P` true if the step is of a kind `Q`, and else leaves `P` as it
was, the run makes `P` true if one of its steps is of that kind. -/
theorem holds_foldl_iff {σ β : Type} {step : σ → β → σ} {P : σ → Prop} {Q : β → Prop}
    (hstep : ∀ s b, P (step s b) ↔ Q b ∨ P s) (s : σ) (bs : List β) :
    P (bs.foldl step s) ↔ (∃ b ∈ bs, Q b) ∨ P s := by
  induction bs generalizing s with
  | nil => simp
  | cons b bs ih =>
    rw [List.foldl_cons, ih, hstep, or_left_comm]
    simp [or_assoc]

end AlarmDischarge.FiniteSet
