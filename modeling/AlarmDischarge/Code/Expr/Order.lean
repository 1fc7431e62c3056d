import AlarmDischarge.Code.Expr

/-!
# `AlarmDischarge.Code.Expr.Order`: the structural order on expressions

Expressions (`Exp`), places (`Lval`) and their parts are ordered by their layouts.

Main definitions: the layouts `Variable.shape`, `Constant.shape`, `UnaryOp.shape`, `BinaryOp.shape`,
`Expr.shape`, `LValue.shape`, `Offset.shape`, and the orders they give.
-/

set_option autoImplicit false

namespace AlarmDischarge

open Std

/-- The layout by which variables are ordered. -/
def Variable.shape (v : Variable) : Shape :=
  .fields [.text v.name, .flag v.isGlobal, v.type.shape]

/-- The layout by which literals are ordered. -/
def Constant.shape : Constant → Shape
  | .int value => .variant 0 [.num value.toInt]
  | .char value => .variant 1 [.num value.toNat]
  | .str value => .variant 2 [.text value]

/-- The layout by which unary operators are ordered. -/
def UnaryOp.shape : UnaryOp → Shape
  | .neg => .variant 0 []
  | .bitNot => .variant 1 []
  | .not => .variant 2 []

/-- The layout by which binary operators are ordered. -/
def BinaryOp.shape : BinaryOp → Shape
  | .add => .variant 0 []
  | .addPtr => .variant 1 []
  | .indexPtr => .variant 2 []
  | .sub => .variant 3 []
  | .subPtr => .variant 4 []
  | .diffPtr => .variant 5 []
  | .mul => .variant 6 []
  | .div => .variant 7 []
  | .mod => .variant 8 []
  | .lt => .variant 9 []
  | .gt => .variant 10 []
  | .le => .variant 11 []
  | .ge => .variant 12 []
  | .eq => .variant 13 []
  | .ne => .variant 14 []
  | .and => .variant 15 []
  | .or => .variant 16 []
  | .bitAnd => .variant 17 []
  | .bitOr => .variant 18 []

mutual

/-- The layout by which expressions are ordered. -/
def Expr.shape : Expr → Shape
  | .const c => .variant 0 [c.shape]
  | .lval place => .variant 1 [place.shape]
  | .sizeOfType t => .variant 2 [t.shape]
  | .sizeOf e => .variant 3 [e.shape]
  | .unary op e => .variant 4 [op.shape, e.shape]
  | .binary op lhs rhs => .variant 5 [op.shape, lhs.shape, rhs.shape]
  | .cast t e => .variant 6 [t.shape, e.shape]
  | .addrOf place => .variant 7 [place.shape]
  | .startOf place => .variant 8 [place.shape]

/-- The layout by which places are ordered. -/
def LValue.shape : LValue → Shape
  | .mk host offset => .fields [host.shape, offset.shape]

/-- The layout by which hosts are ordered. -/
def Host.shape : Host → Shape
  | .var v => .variant 0 [v.shape]
  | .mem address => .variant 1 [address.shape]

/-- The layout by which chains of steps are ordered. -/
def Offset.shape : Offset → Shape
  | .none => .variant 0 []
  | .field name rest => .variant 1 [.text name, rest.shape]
  | .index subscript rest => .variant 2 [subscript.shape, rest.shape]

end

instance : Ord Variable := ⟨compareOn Variable.shape⟩
instance : Ord Constant := ⟨compareOn Constant.shape⟩
instance : Ord UnaryOp := ⟨compareOn UnaryOp.shape⟩
instance : Ord BinaryOp := ⟨compareOn BinaryOp.shape⟩
instance : Ord Expr := ⟨compareOn Expr.shape⟩
instance : Ord LValue := ⟨compareOn LValue.shape⟩
instance : Ord Offset := ⟨compareOn Offset.shape⟩

end AlarmDischarge
