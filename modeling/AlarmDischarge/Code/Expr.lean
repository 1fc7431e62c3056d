import AlarmDischarge.Code.CType

/-!
# `AlarmDischarge.Code.Expr`: expressions and places

Expressions of the analysed C program. A place (`LValue`) is a host, which is a variable or the
memory an expression points to, followed by a chain of field and index steps.

Main definitions:

* `Variable`, `Constant`, `UnaryOp`, `BinaryOp` (`VarInfo`, `Constant`, `UnOp`, `BinOp`);
* `Expr`, `LValue`, `Host`, `Offset` (`Exp`, `Lval`, `LHost`, `Offset`), which refer to each other;
* `Expr.bareVar?`, `LValue.bareVar?`: the variable behind a place that has no steps (`as_bare_var`);
* `Expr.variables`, `LValue.readVariables`: the names read by evaluating (`variables`,
  `read_variables`);
* `LValue.definedVariable?`: the name whose storage a write changes (`defined_variable`).
-/

set_option autoImplicit false

namespace AlarmDischarge

open Std

/-- A declared variable. -/
structure Variable where
  name : String
  isGlobal : Bool
  type : CType
deriving DecidableEq

namespace Variable

/-- A local variable of type `int`. -/
def localInt (name : String) : Variable := ⟨name, false, .int⟩

/-- A global variable of type `int`. -/
def globalInt (name : String) : Variable := ⟨name, true, .int⟩

end Variable

/-- A literal of the program text. -/
inductive Constant where
  | int (value : Int64)
  | char (value : Char)
  | str (value : String)
deriving DecidableEq

/-- Unary operators. -/
inductive UnaryOp where
  /-- arithmetic negation -/
  | neg
  /-- bitwise complement -/
  | bitNot
  /-- logical negation -/
  | not
deriving DecidableEq

/-- Binary operators. Addition and subtraction are told apart by what they act on. -/
inductive BinaryOp where
  /-- integer plus integer -/
  | add
  /-- pointer plus integer -/
  | addPtr
  /-- pointer plus integer, as written by indexing -/
  | indexPtr
  /-- integer minus integer -/
  | sub
  /-- pointer minus integer -/
  | subPtr
  /-- pointer minus pointer -/
  | diffPtr
  | mul
  | div
  | mod
  | lt
  | gt
  | le
  | ge
  | eq
  | ne
  | and
  | or
  | bitAnd
  | bitOr
deriving DecidableEq

mutual

/-- An expression. -/
inductive Expr where
  | const (c : Constant)
  | lval (place : LValue)
  | sizeOfType (t : CType)
  | sizeOf (e : Expr)
  | unary (op : UnaryOp) (e : Expr)
  | binary (op : BinaryOp) (lhs rhs : Expr)
  | cast (t : CType) (e : Expr)
  | addrOf (place : LValue)
  | startOf (place : LValue)
deriving DecidableEq

/-- A place: a host and the steps from it. -/
inductive LValue where
  | mk (host : Host) (offset : Offset)
deriving DecidableEq

/-- Where a place starts: a variable, or the memory an expression points to. -/
inductive Host where
  | var (v : Variable)
  | mem (address : Expr)
deriving DecidableEq

/-- The steps from a host to a place inside it. -/
inductive Offset where
  | none
  | field (name : String) (rest : Offset)
  | index (subscript : Expr) (rest : Offset)
deriving DecidableEq

end

namespace LValue

/-- Where a place starts. -/
def host : LValue → Host
  | mk h _ => h

/-- The steps of a place. -/
def offset : LValue → Offset
  | mk _ o => o

/-- The place of a whole variable. -/
def var (v : Variable) : LValue := mk (.var v) .none

/-- The place an expression points to. -/
def mem (address : Expr) : LValue := mk (.mem address) .none

/-- A field of what a pointer variable points to. -/
def arrow (base : Variable) (field : String) : LValue :=
  mk (.mem (.lval (var base))) (.field field .none)

/-- An element of an array variable. -/
def element (array : Variable) (subscript : Expr) : LValue :=
  mk (.var array) (.index subscript .none)

/-- The variable of a place that is a whole variable. -/
def bareVar? : LValue → Option Variable
  | mk (.var v) .none => some v
  | _ => none

/-- The name of the variable whose storage a write to the place changes; a write through a pointer
changes no named variable. -/
def definedVariable? (place : LValue) : Option String :=
  match place.host with
  | .var v => some v.name
  | .mem _ => none

end LValue

namespace Expr

/-- An integer literal. -/
def int (value : Int64) : Expr := const (.int value)

/-- A read of a whole variable. -/
def var (v : Variable) : Expr := lval (.var v)

/-- The variable of an expression that reads a whole variable. -/
def bareVar? : Expr → Option Variable
  | lval place => place.bareVar?
  | _ => none

end Expr

/-! ### Variables read

`variables` of an expression names every variable whose value evaluating it reads. Taking the
address of a place reads only what it takes to find the place. -/

mutual

/-- The names of the variables read by evaluating an expression. -/
def Expr.variables : Expr → ExtTreeSet String
  | .const _ => ∅
  | .sizeOfType _ => ∅
  | .lval place => place.accessVariables
  | .sizeOf e => e.variables
  | .unary _ e => e.variables
  | .binary _ lhs rhs => lhs.variables ∪ rhs.variables
  | .cast _ e => e.variables
  | .addrOf place => place.readVariables
  | .startOf place => place.readVariables

/-- The names of the variables read by finding a place and loading what it holds. -/
def LValue.accessVariables : LValue → ExtTreeSet String
  | .mk host offset => host.accessVariables ∪ offset.variables

/-- The names of the variables read by finding a place. -/
def LValue.readVariables : LValue → ExtTreeSet String
  | .mk host offset => host.readVariables ∪ offset.variables

/-- The names of the variables read by finding a host and loading what it holds. -/
def Host.accessVariables : Host → ExtTreeSet String
  | .var v => {v.name}
  | .mem address => address.variables

/-- The names of the variables read by finding a host. -/
def Host.readVariables : Host → ExtTreeSet String
  | .var _ => ∅
  | .mem address => address.variables

/-- The names of the variables read by the subscripts of a chain of steps. -/
def Offset.variables : Offset → ExtTreeSet String
  | .none => ∅
  | .field _ rest => rest.variables
  | .index subscript rest => subscript.variables ∪ rest.variables

end

end AlarmDischarge
