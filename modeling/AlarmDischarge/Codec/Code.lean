import AlarmDischarge.Code.Command
import AlarmDischarge.Json.Access
import AlarmDischarge.Node

/-!
# `AlarmDischarge.Codec.Code`: programs in JSON

Alternatives are tagged with the names of the exchange format, and alternatives with several fields
hold the array of them.

Main definitions: `toJson` and `ofJson?` of `Node`, `CType` (`Typ`), `Variable` (`VarInfo`),
`Constant`, `UnaryOp` (`UnOp`), `BinaryOp` (`BinOp`), `Expr` (`Exp`), `LValue` (`Lval`), `Host`
(`LHost`), `Offset` and `Command`.
-/

set_option autoImplicit false

namespace AlarmDischarge

/-! ### Nodes, types and variables -/

/-- A node as JSON. -/
def Node.toJson (n : Node) : Json :=
  .obj [("pid", .str n.procedure), ("index", .ofUInt64 n.index)]

/-- A node from JSON. -/
def Node.ofJson? (j : Json) : Option Node :=
  match j.record? ["pid", "index"] with
  | some [procedure, index] => do
    return ⟨← Json.required? Json.text? procedure, ← Json.required? Json.uint64? index⟩
  | _ => none

/-- A type as JSON. -/
def CType.toJson : CType → Json
  | void => .str "Void"
  | int => .str "Int"
  | char => .str "Char"
  | float => .str "Float"
  | ptr t => .tagged "Ptr" t.toJson
  | array t n => .tagged "Array" (.arr [t.toJson, .ofOption .ofInt64 n])
  | struct name => .tagged "Struct" (.str name)

/-- A type from JSON. -/
def CType.ofJson? : Json → Option CType
  | .obj [("Ptr", t)] => (ofJson? t).map ptr
  | .obj [("Array", .arr [t, n])] => do
    return array (← ofJson? t) (← Json.option? Json.int64? n)
  | .obj [("Struct", .str name)] => some (struct name)
  | j =>
    match j.unit? with
    | some "Void" => some void
    | some "Int" => some int
    | some "Char" => some char
    | some "Float" => some float
    | _ => none

/-- A variable as JSON. -/
def Variable.toJson (v : Variable) : Json :=
  .obj [("name", .str v.name), ("is_global", .bool v.isGlobal), ("typ", v.type.toJson)]

/-- A variable from JSON. -/
def Variable.ofJson? (j : Json) : Option Variable :=
  match j.record? ["name", "is_global", "typ"] with
  | some [name, isGlobal, type] => do
    return ⟨← Json.required? Json.text? name, ← Json.required? Json.bool? isGlobal,
      ← Json.required? CType.ofJson? type⟩
  | _ => none

/-- A literal as JSON. -/
def Constant.toJson : Constant → Json
  | int value => .tagged "Int" (.ofInt64 value)
  | char value => .tagged "Char" (.ofChar value)
  | str value => .tagged "Str" (.str value)

/-- A literal from JSON. -/
def Constant.ofJson? : Json → Option Constant
  | .obj [("Int", value)] => value.int64?.map int
  | .obj [("Char", value)] => value.char?.map char
  | .obj [("Str", value)] => value.text?.map str
  | _ => none

/-! ### Operators -/

namespace UnaryOp

/-- The name of an operator in the exchange format. -/
def name : UnaryOp → String
  | neg => "Neg"
  | bitNot => "BNot"
  | not => "LNot"

/-- An operator as JSON. -/
def toJson (op : UnaryOp) : Json := .str op.name

/-- An operator from JSON. -/
def ofJson? (j : Json) : Option UnaryOp :=
  j.unit?.bind fun s => [neg, bitNot, not].find? (fun op => op.name == s)

end UnaryOp

namespace BinaryOp

/-- The name of an operator in the exchange format. -/
def name : BinaryOp → String
  | add => "PlusA"
  | addPtr => "PlusPI"
  | indexPtr => "IndexPI"
  | sub => "MinusA"
  | subPtr => "MinusPI"
  | diffPtr => "MinusPP"
  | mul => "Mult"
  | div => "Div"
  | mod => "Mod"
  | lt => "Lt"
  | gt => "Gt"
  | le => "Le"
  | ge => "Ge"
  | eq => "Eq"
  | ne => "Ne"
  | and => "LAnd"
  | or => "LOr"
  | bitAnd => "BAnd"
  | bitOr => "BOr"

/-- Every operator, in order. -/
def all : List BinaryOp :=
  [add, addPtr, indexPtr, sub, subPtr, diffPtr, mul, div, mod, lt, gt, le, ge, eq, ne, and, or,
    bitAnd, bitOr]

/-- An operator as JSON. -/
def toJson (op : BinaryOp) : Json := .str op.name

/-- An operator from JSON. -/
def ofJson? (j : Json) : Option BinaryOp :=
  j.unit?.bind fun s => all.find? (fun op => op.name == s)

end BinaryOp

/-! ### Expressions and places -/

mutual

/-- An expression as JSON. -/
def Expr.toJson : Expr → Json
  | .const c => .tagged "Const" c.toJson
  | .lval place => .tagged "Lval" place.toJson
  | .sizeOfType t => .tagged "SizeOf" t.toJson
  | .sizeOf e => .tagged "SizeOfE" e.toJson
  | .unary op e => .tagged "UnOp" (.arr [op.toJson, e.toJson])
  | .binary op lhs rhs => .tagged "BinOp" (.arr [op.toJson, lhs.toJson, rhs.toJson])
  | .cast t e => .tagged "Cast" (.arr [t.toJson, e.toJson])
  | .addrOf place => .tagged "AddrOf" place.toJson
  | .startOf place => .tagged "StartOf" place.toJson

/-- A place as JSON. -/
def LValue.toJson : LValue → Json
  | .mk host offset => .obj [("host", host.toJson), ("offset", offset.toJson)]

/-- A host as JSON. -/
def Host.toJson : Host → Json
  | .var v => .tagged "Var" v.toJson
  | .mem address => .tagged "Mem" address.toJson

/-- A chain of steps as JSON. -/
def Offset.toJson : Offset → Json
  | .none => .str "NoOffset"
  | .field name rest => .tagged "Field" (.arr [.str name, rest.toJson])
  | .index subscript rest => .tagged "Index" (.arr [subscript.toJson, rest.toJson])

end

mutual

/-- An expression from JSON. -/
def Expr.ofJson? (j : Json) : Option Expr :=
  match j with
  | .obj [("Const", c)] => (Constant.ofJson? c).map .const
  | .obj [("Lval", place)] => (LValue.ofJson? place).map .lval
  | .obj [("SizeOf", t)] => (CType.ofJson? t).map .sizeOfType
  | .obj [("SizeOfE", e)] => (Expr.ofJson? e).map .sizeOf
  | .obj [("UnOp", .arr [op, e])] => do
    return .unary (← UnaryOp.ofJson? op) (← Expr.ofJson? e)
  | .obj [("BinOp", .arr [op, lhs, rhs])] => do
    return .binary (← BinaryOp.ofJson? op) (← Expr.ofJson? lhs) (← Expr.ofJson? rhs)
  | .obj [("Cast", .arr [t, e])] => do
    return .cast (← CType.ofJson? t) (← Expr.ofJson? e)
  | .obj [("AddrOf", place)] => (LValue.ofJson? place).map .addrOf
  | .obj [("StartOf", place)] => (LValue.ofJson? place).map .startOf
  | _ => none
termination_by sizeOf j

/-- A place from JSON. -/
def LValue.ofJson? (j : Json) : Option LValue :=
  match j with
  | .arr [host, offset] => do
    return .mk (← Host.ofJson? host) (← Offset.ofJson? offset)
  | .obj fields =>
    match hh : fields.lookup "host", ho : fields.lookup "offset" with
    | some host, some offset =>
      have := Json.sizeOf_lookup_lt hh
      have := Json.sizeOf_lookup_lt ho
      do return .mk (← Host.ofJson? host) (← Offset.ofJson? offset)
    | _, _ => none
  | _ => none
termination_by sizeOf j

/-- A host from JSON. -/
def Host.ofJson? (j : Json) : Option Host :=
  match j with
  | .obj [("Var", v)] => (Variable.ofJson? v).map .var
  | .obj [("Mem", address)] => (Expr.ofJson? address).map .mem
  | _ => none
termination_by sizeOf j

/-- A chain of steps from JSON. -/
def Offset.ofJson? (j : Json) : Option Offset :=
  match j with
  | .obj [("Field", .arr [name, rest])] => do
    return .field (← name.text?) (← Offset.ofJson? rest)
  | .obj [("Index", .arr [subscript, rest])] => do
    return .index (← Expr.ofJson? subscript) (← Offset.ofJson? rest)
  | j => if j.unit? = some "NoOffset" then some .none else none
termination_by sizeOf j

end

/-! ### Commands -/

namespace Command

/-- The size of an allocation as JSON, tagged with the kind of allocation. -/
def allocationToJson (size : Expr) : Json := .tagged "Array" size.toJson

/-- The size of an allocation from JSON. -/
def allocationOfJson? : Json → Option Expr
  | .obj [("Array", size)] => Expr.ofJson? size
  | _ => none

/-- A command as JSON. -/
def toJson : Command → Json
  | assign place value => .tagged "Set" (.obj [("lval", place.toJson), ("exp", value.toJson)])
  | alloc place size =>
    .tagged "Alloc" (.obj [("lval", place.toJson), ("kind", allocationToJson size)])
  | call result callee args =>
    .tagged "Call" (.obj [("ret", .ofOption LValue.toJson result), ("callee", callee.toJson),
      ("args", .ofList Expr.toJson args)])
  | fetch place => .tagged "External" (.obj [("lval", place.toJson)])
  | assume condition => .tagged "Assume" condition.toJson
  | ret value => .tagged "Return" (.ofOption Expr.toJson value)
  | skip => .str "Skip"

/-- A command from JSON. -/
def ofJson? : Json → Option Command
  | .obj [("Set", .obj fields)] => do
    return assign (← (fields.lookup "lval").bind LValue.ofJson?)
      (← (fields.lookup "exp").bind Expr.ofJson?)
  | .obj [("Alloc", .obj fields)] => do
    return alloc (← (fields.lookup "lval").bind LValue.ofJson?)
      (← (fields.lookup "kind").bind allocationOfJson?)
  | .obj [("Call", .obj fields)] => do
    return call (← Json.defaulted? none (Json.option? LValue.ofJson?) (fields.lookup "ret"))
      (← (fields.lookup "callee").bind Expr.ofJson?)
      (← (fields.lookup "args").bind (Json.list? Expr.ofJson?))
  | .obj [("External", .obj fields)] => do
    return fetch (← (fields.lookup "lval").bind LValue.ofJson?)
  | .obj [("Assume", condition)] => (Expr.ofJson? condition).map assume
  | .obj [("Return", value)] => (Json.option? Expr.ofJson? value).map ret
  | j => if j.unit? = some "Skip" then some skip else none

end Command

end AlarmDischarge
