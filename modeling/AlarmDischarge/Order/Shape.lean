import Std.Data.ExtTreeSet

/-!
# `AlarmDischarge.Order.Shape`: the structural order on trees

Syntax trees are ordered by their shape: the earlier alternative comes first, and two values of one
alternative are compared field by field from the left. `Shape` is the common form in which every
syntax tree of the library is laid out for that comparison. A type lays out its values with
`Shape.variant` and compares them by `compareOn` of that layout.

Main definitions and statements:

* `Shape`, `Shape.variant`: what a tree is laid out as;
* `Shape.compare`: the order itself, with the instances `TransOrd Shape` and `LawfulEqOrd Shape`;
* `lawfulEqOrd_of_injective`: a layout that loses nothing hands the laws on to the type laid out.
-/

set_option autoImplicit false

namespace AlarmDischarge

open Std

/-- The layout of a syntax tree: a leaf carries a number and a text, and trees grow by pairing. -/
inductive Shape where
  | leaf (number : Int) (text : String)
  | pair (head tail : Shape)
deriving DecidableEq

namespace Shape

/-- A number as a shape. -/
def num (i : Int) : Shape := leaf i ""

/-- A text as a shape. -/
def text (s : String) : Shape := leaf 0 s

/-- A truth value as a shape: `false` comes before `true`. -/
def flag (b : Bool) : Shape := num (if b then 1 else 0)

/-- The fields of a value, in declaration order. -/
def fields : List Shape → Shape
  | [] => num 0
  | s :: rest => pair s (fields rest)

/-- A value of the alternative with the given position among the alternatives of its type. -/
def variant (position : Int) (parts : List Shape) : Shape :=
  pair (num position) (fields parts)

/-- A value that may be absent: absence comes first. -/
def option {α : Type} (layout : α → Shape) : Option α → Shape
  | none => variant 0 []
  | some a => variant 1 [layout a]

/-- Leaves compare by number and then by text, pairs from the left, and a leaf precedes a pair. -/
protected def compare : Shape → Shape → Ordering
  | leaf i s, leaf j t => (Ord.compare i j).then (Ord.compare s t)
  | leaf _ _, pair _ _ => .lt
  | pair _ _, leaf _ _ => .gt
  | pair a b, pair c d => (a.compare c).then (b.compare d)

instance : Ord Shape := ⟨Shape.compare⟩

/-! ### The order is lawful -/

/-- What a transitive comparison promises of its outcomes for `a` and `b`, for `b` and `c`, and
for `a` and `c`. -/
private def Chained (ab bc ac : Ordering) : Prop :=
  (ab.isLE → bc.isLE → ac.isLE) ∧ (ab = .lt → bc.isLE → ac = .lt) ∧
    (ab.isLE → bc = .lt → ac = .lt) ∧ (ab = .eq → bc = .eq → ac = .eq)

private instance (ab bc ac : Ordering) : Decidable (Chained ab bc ac) :=
  inferInstanceAs (Decidable (_ ∧ _ ∧ _ ∧ _))

/-- Comparing from the left keeps chained outcomes chained. -/
private theorem Chained.then {ab bc ac ab' bc' ac' : Ordering} (h : Chained ab bc ac)
    (h' : Chained ab' bc' ac') : Chained (ab.then ab') (bc.then bc') (ac.then ac') := by
  revert h h'
  cases ab <;> cases bc <;> cases ac <;> cases ab' <;> cases bc' <;> cases ac' <;> decide

private theorem chained_compare {α : Type} [Ord α] [TransOrd α] (a b c : α) :
    Chained (compare a b) (compare b c) (compare a c) :=
  ⟨TransCmp.isLE_trans, TransCmp.lt_of_lt_of_isLE, TransCmp.lt_of_isLE_of_lt,
    TransCmp.eq_trans⟩

private theorem chained (a b c : Shape) :
    Chained (a.compare b) (b.compare c) (a.compare c) := by
  induction a generalizing b c with
  | leaf i s =>
    match b, c with
    | leaf j t, leaf k u => exact (chained_compare i j k).then (chained_compare s t u)
    -- In the other cases a leaf meets a pair, and which is which decides.
    | leaf j t, pair c₁ c₂ => simp [Shape.compare, Chained]
    | pair b₁ b₂, leaf k u => simp [Shape.compare, Chained]
    | pair b₁ b₂, pair c₁ c₂ => simp [Shape.compare, Chained]
  | pair a₁ a₂ ih₁ ih₂ =>
    match b, c with
    | leaf j t, leaf k u => simp [Shape.compare, Chained]
    | leaf j t, pair c₁ c₂ => simp [Shape.compare, Chained]
    | pair b₁ b₂, leaf k u => simp [Shape.compare, Chained]
    | pair b₁ b₂, pair c₁ c₂ => exact (ih₁ b₁ c₁).then (ih₂ b₂ c₂)

private theorem compare_swap (a b : Shape) : a.compare b = (b.compare a).swap := by
  induction a generalizing b with
  | leaf i s =>
    cases b with
    | leaf j t =>
      simp only [Shape.compare, Ordering.swap_then]
      rw [OrientedOrd.eq_swap (a := i), OrientedOrd.eq_swap (a := s)]
    | pair c d => rfl
  | pair a₁ a₂ ih₁ ih₂ =>
    cases b with
    | leaf j t => rfl
    | pair c d => simp only [Shape.compare, Ordering.swap_then, ← ih₁, ← ih₂]

private theorem eq_of_compare {a b : Shape} (h : a.compare b = .eq) : a = b := by
  induction a generalizing b with
  | leaf i s =>
    cases b with
    | leaf j t =>
      simp only [Shape.compare, Ordering.then_eq_eq] at h
      rw [LawfulEqCmp.eq_of_compare h.1, LawfulEqCmp.eq_of_compare h.2]
    | pair c d => simp [Shape.compare] at h
  | pair a₁ a₂ ih₁ ih₂ =>
    cases b with
    | leaf j t => simp [Shape.compare] at h
    | pair c d =>
      simp only [Shape.compare, Ordering.then_eq_eq] at h
      rw [ih₁ h.1, ih₂ h.2]

instance : TransOrd Shape where
  eq_swap := compare_swap _ _
  isLE_trans := (chained _ _ _).1

instance : LawfulEqOrd Shape where
  eq_of_compare := eq_of_compare

end Shape

/-- A type ordered by a layout that loses nothing is lawfully ordered. -/
theorem lawfulEqOrd_of_injective {α β : Type} [Ord β] [TransOrd β] [LawfulEqOrd β] (layout : α → β)
    (injective : ∀ a b, layout a = layout b → a = b) : LawfulEqCmp (compareOn layout) where
  compare_self := ReflOrd.compare_self
  eq_of_compare h := injective _ _ (LawfulEqOrd.eq_of_compare h)

end AlarmDischarge
