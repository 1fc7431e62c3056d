import AlarmDischarge.Logic.Term

/-!
# `AlarmDischarge.Logic.Formula`: facts and conditions

Formulas are boolean combinations of comparisons between terms. They are plain values: two formulas
are the same exactly when they are written the same way.

Main definitions:

* `Formula`, `Formula.text`, and the structural order with its laws;
* `Formula.negation`: the opposite formula (`negation`), which strips one `not` instead of adding a
  second;
* `Formula.isSelfContradictory`: false by its shape alone (`is_self_contradictory`);
* `Formula.conjoin`: a conjunction nested to the left (`conjoin`).
-/

set_option autoImplicit false

namespace AlarmDischarge

open Std

/-- A boolean formula over terms. -/
inductive Formula where
  | true
  | false
  | not (f : Formula)
  | eq (lhs rhs : Term)
  | lt (lhs rhs : Term)
  | le (lhs rhs : Term)
  | and (f g : Formula)
  | or (f g : Formula)
deriving DecidableEq

namespace Formula

/-- A formula in written form: connectives are bracketed, comparisons are not. -/
def text : Formula → String
  | true => "true"
  | false => "false"
  | not f => "!(" ++ f.text ++ ")"
  | eq lhs rhs => lhs.text ++ " = " ++ rhs.text
  | lt lhs rhs => lhs.text ++ " < " ++ rhs.text
  | le lhs rhs => lhs.text ++ " <= " ++ rhs.text
  | and f g => "(" ++ f.text ++ " && " ++ g.text ++ ")"
  | or f g => "(" ++ f.text ++ " || " ++ g.text ++ ")"

/-- The opposite of a formula: one `not` is stripped if there is one, else one is added. -/
def negation : Formula → Formula
  | not f => f
  | f => not f

/-- Whether a formula is false by its shape alone: `false`, `not true`, or its own opposite.
Comparisons are not evaluated. -/
def isSelfContradictory (f : Formula) : Bool :=
  f == false || f == not true || f == f.negation

/-- The conjunction of a formula with further ones, nested to the left. -/
def conjoin (first : Formula) (rest : List Formula) : Formula := rest.foldl and first

/-! ### Order -/

/-- The layout by which formulas are ordered. -/
def shape : Formula → Shape
  | true => .variant 0 []
  | false => .variant 1 []
  | not f => .variant 2 [f.shape]
  | eq lhs rhs => .variant 3 [lhs.shape, rhs.shape]
  | lt lhs rhs => .variant 4 [lhs.shape, rhs.shape]
  | le lhs rhs => .variant 5 [lhs.shape, rhs.shape]
  | and f g => .variant 6 [f.shape, g.shape]
  | or f g => .variant 7 [f.shape, g.shape]

/-- The layout of a formula determines the formula. -/
theorem shape_injective (f g : Formula) (h : f.shape = g.shape) : f = g := by
  induction f generalizing g with
  | true => cases g <;> simp [shape, Shape.variant, Shape.fields, Shape.num] at h ⊢
  | false => cases g <;> simp [shape, Shape.variant, Shape.fields, Shape.num] at h ⊢
  | not f ih =>
    cases g <;> simp [shape, Shape.variant, Shape.fields, Shape.num] at h ⊢
    exact ih _ h
  | eq lhs rhs =>
    cases g <;> simp [shape, Shape.variant, Shape.fields, Shape.num] at h ⊢
    exact ⟨Term.shape_injective _ _ h.1, Term.shape_injective _ _ h.2⟩
  | lt lhs rhs =>
    cases g <;> simp [shape, Shape.variant, Shape.fields, Shape.num] at h ⊢
    exact ⟨Term.shape_injective _ _ h.1, Term.shape_injective _ _ h.2⟩
  | le lhs rhs =>
    cases g <;> simp [shape, Shape.variant, Shape.fields, Shape.num] at h ⊢
    exact ⟨Term.shape_injective _ _ h.1, Term.shape_injective _ _ h.2⟩
  | and f₁ f₂ ih₁ ih₂ =>
    cases g <;> simp [shape, Shape.variant, Shape.fields, Shape.num] at h ⊢
    exact ⟨ih₁ _ h.1, ih₂ _ h.2⟩
  | or f₁ f₂ ih₁ ih₂ =>
    cases g <;> simp [shape, Shape.variant, Shape.fields, Shape.num] at h ⊢
    exact ⟨ih₁ _ h.1, ih₂ _ h.2⟩

instance : Ord Formula := ⟨compareOn shape⟩

instance : TransOrd Formula := inferInstanceAs (TransCmp (compareOn shape))

instance : LawfulEqOrd Formula := lawfulEqOrd_of_injective shape shape_injective

end Formula

end AlarmDischarge
