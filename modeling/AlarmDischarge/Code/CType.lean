import AlarmDischarge.Order.Shape

/-!
# `AlarmDischarge.Code.CType`: types of the analysed language

Types (`Typ`) are kept only as finely as casts and `sizeof` need them.

Main definitions: `CType`, `CType.text`, and the structural order.
-/

set_option autoImplicit false

namespace AlarmDischarge

open Std

/-- A type of the analysed C program. -/
inductive CType where
  | void
  | int
  | char
  | float
  | ptr (target : CType)
  | array (element : CType) (length : Option Int64)
  | struct (name : String)
deriving DecidableEq

namespace CType

/-- A type in C notation. -/
def text : CType → String
  | void => "void"
  | int => "int"
  | char => "char"
  | float => "float"
  | ptr t => t.text ++ " *"
  | array t none => t.text ++ "[]"
  | array t (some n) => t.text ++ "[" ++ n.toInt.repr ++ "]"
  | struct name => "struct " ++ name

/-- The layout by which types are ordered. -/
def shape : CType → Shape
  | void => .variant 0 []
  | int => .variant 1 []
  | char => .variant 2 []
  | float => .variant 3 []
  | ptr t => .variant 4 [t.shape]
  | array t n => .variant 5 [t.shape, .option (fun i => .num i.toInt) n]
  | struct name => .variant 6 [.text name]

instance : Ord CType := ⟨compareOn shape⟩

instance : TransOrd CType := inferInstanceAs (TransCmp (compareOn shape))

end CType

end AlarmDischarge
