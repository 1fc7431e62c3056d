import AlarmDischarge.Code.Expr
import AlarmDischarge.Text.Escape

/-!
# `AlarmDischarge.Code.Expr.Text`: expressions in C notation

Binary operations are bracketed with their operator set off by blanks, unary operators stand before
a bracketed operand, and a field of what a pointer refers to is written with an arrow.

Main definitions: `Constant.text`, `BinaryOp.symbol` (`symbol`), and `Expr.text`, `LValue.text` and
`Offset.text`, the written forms of `Exp`, `Lval` and `Offset`.
-/

set_option autoImplicit false

namespace AlarmDischarge

/-- A literal in C notation. -/
def Constant.text : Constant → String
  | .int value => value.toInt.repr
  | .char value => "'" ++ String.ofList (Text.escapeChar value) ++ "'"
  | .str value => "\"" ++ Text.escape value ++ "\""

/-- The C operator. -/
def UnaryOp.symbol : UnaryOp → String
  | .neg => "-"
  | .bitNot => "~"
  | .not => "!"

/-- The C operator. Operators on pointers share the symbol of the integer operation. -/
def BinaryOp.symbol : BinaryOp → String
  | .add | .addPtr | .indexPtr => "+"
  | .sub | .subPtr | .diffPtr => "-"
  | .mul => "*"
  | .div => "/"
  | .mod => "%"
  | .lt => "<"
  | .gt => ">"
  | .le => "<="
  | .ge => ">="
  | .eq => "=="
  | .ne => "!="
  | .and => "&&"
  | .or => "||"
  | .bitAnd => "&"
  | .bitOr => "|"

mutual

/-- An expression in C notation. -/
def Expr.text : Expr → String
  | .const c => c.text
  | .lval place => place.text
  | .sizeOfType t => "sizeof(" ++ t.text ++ ")"
  | .sizeOf e => "sizeof(" ++ e.text ++ ")"
  | .unary op e => op.symbol ++ "(" ++ e.text ++ ")"
  | .binary op lhs rhs => "(" ++ lhs.text ++ " " ++ op.symbol ++ " " ++ rhs.text ++ ")"
  | .cast t e => "(" ++ t.text ++ ")" ++ e.text
  | .addrOf place => "&" ++ place.text
  | .startOf place => place.text

/-- A place in C notation: a first field step from memory is an arrow, any other step from memory
follows a bracketed dereference. -/
def LValue.text : LValue → String
  | .mk (.var v) offset => v.name ++ offset.text
  | .mk (.mem address) (.field name rest) => address.text ++ "->" ++ name ++ rest.text
  | .mk (.mem address) offset => "(*" ++ address.text ++ ")" ++ offset.text

/-- A chain of steps in C notation. -/
def Offset.text : Offset → String
  | .none => ""
  | .field name rest => "." ++ name ++ rest.text
  | .index subscript rest => "[" ++ subscript.text ++ "]" ++ rest.text

end

end AlarmDischarge
