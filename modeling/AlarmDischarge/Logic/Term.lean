import AlarmDischarge.Order.Shape

/-!
# `AlarmDischarge.Logic.Term`: integer terms

Terms (`Term`) speak of the integer values of program variables, of array lengths and of storage
sizes.

Main definitions: `Term`, `Term.text`, and the structural order with its laws.
-/

set_option autoImplicit false

namespace AlarmDischarge

open Std

/-- An integer term. A variable is known by its name alone. -/
inductive Term where
  | var (name : String)
  | int (value : Int64)
  | mul (lhs rhs : Term)
  | add (lhs rhs : Term)
  | sub (lhs rhs : Term)
  | arraySize (array : Term)
  | sizeOf (object : Term)
deriving DecidableEq

namespace Term

/-- A term in written form: arithmetic is bracketed, sizes read as function calls. -/
def text : Term → String
  | var name => name
  | int value => value.toInt.repr
  | mul lhs rhs => "(" ++ lhs.text ++ " * " ++ rhs.text ++ ")"
  | add lhs rhs => "(" ++ lhs.text ++ " + " ++ rhs.text ++ ")"
  | sub lhs rhs => "(" ++ lhs.text ++ " - " ++ rhs.text ++ ")"
  | arraySize array => "arrsize(" ++ array.text ++ ")"
  | sizeOf object => "sizeof(" ++ object.text ++ ")"

/-! ### Order -/

/-- The layout by which terms are ordered. -/
def shape : Term → Shape
  | var name => .variant 0 [.text name]
  | int value => .variant 1 [.num value.toInt]
  | mul lhs rhs => .variant 2 [lhs.shape, rhs.shape]
  | add lhs rhs => .variant 3 [lhs.shape, rhs.shape]
  | sub lhs rhs => .variant 4 [lhs.shape, rhs.shape]
  | arraySize array => .variant 5 [array.shape]
  | sizeOf object => .variant 6 [object.shape]

/-- The layout of a term determines the term. -/
theorem shape_injective (t u : Term) (h : t.shape = u.shape) : t = u := by
  induction t generalizing u with
  | var name => cases u <;> simp_all [shape, Shape.variant, Shape.fields, Shape.num, Shape.text]
  | int value =>
    cases u <;> simp_all [shape, Shape.variant, Shape.fields, Shape.num, Int64.toInt_inj]
  | mul lhs rhs ihl ihr =>
    cases u <;> simp [shape, Shape.variant, Shape.fields, Shape.num] at h ⊢
    exact ⟨ihl _ h.1, ihr _ h.2⟩
  | add lhs rhs ihl ihr =>
    cases u <;> simp [shape, Shape.variant, Shape.fields, Shape.num] at h ⊢
    exact ⟨ihl _ h.1, ihr _ h.2⟩
  | sub lhs rhs ihl ihr =>
    cases u <;> simp [shape, Shape.variant, Shape.fields, Shape.num] at h ⊢
    exact ⟨ihl _ h.1, ihr _ h.2⟩
  | arraySize array ih =>
    cases u <;> simp [shape, Shape.variant, Shape.fields, Shape.num] at h ⊢
    exact ih _ h
  | sizeOf object ih =>
    cases u <;> simp [shape, Shape.variant, Shape.fields, Shape.num] at h ⊢
    exact ih _ h

instance : Ord Term := ⟨compareOn shape⟩

instance : TransOrd Term := inferInstanceAs (TransCmp (compareOn shape))

instance : LawfulEqOrd Term := lawfulEqOrd_of_injective shape shape_injective

end Term

end AlarmDischarge
