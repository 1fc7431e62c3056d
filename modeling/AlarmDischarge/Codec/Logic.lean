import AlarmDischarge.Json.Access
import AlarmDischarge.Logic.Formula

/-!
# `AlarmDischarge.Codec.Logic`: terms and formulas in JSON

Main definitions: `toJson` and `ofJson?` of `Term` and `Formula`.
-/

set_option autoImplicit false

namespace AlarmDischarge

/-- A term as JSON. -/
def Term.toJson : Term → Json
  | var name => .tagged "Var" (.str name)
  | int value => .tagged "Int" (.ofInt64 value)
  | mul lhs rhs => .tagged "Mul" (.arr [lhs.toJson, rhs.toJson])
  | add lhs rhs => .tagged "Add" (.arr [lhs.toJson, rhs.toJson])
  | sub lhs rhs => .tagged "Sub" (.arr [lhs.toJson, rhs.toJson])
  | arraySize array => .tagged "ArraySize" array.toJson
  | sizeOf object => .tagged "SizeOf" object.toJson

/-- A term from JSON. -/
def Term.ofJson? : Json → Option Term
  | .obj [("Var", name)] => name.text?.map var
  | .obj [("Int", value)] => value.int64?.map int
  | .obj [("Mul", .arr [lhs, rhs])] => do return mul (← ofJson? lhs) (← ofJson? rhs)
  | .obj [("Add", .arr [lhs, rhs])] => do return add (← ofJson? lhs) (← ofJson? rhs)
  | .obj [("Sub", .arr [lhs, rhs])] => do return sub (← ofJson? lhs) (← ofJson? rhs)
  | .obj [("ArraySize", array)] => (ofJson? array).map arraySize
  | .obj [("SizeOf", object)] => (ofJson? object).map Term.sizeOf
  | _ => none

/-- A formula as JSON. -/
def Formula.toJson : Formula → Json
  | true => .str "True"
  | false => .str "False"
  | not f => .tagged "Not" f.toJson
  | eq lhs rhs => .tagged "Eq" (.arr [lhs.toJson, rhs.toJson])
  | lt lhs rhs => .tagged "Lt" (.arr [lhs.toJson, rhs.toJson])
  | le lhs rhs => .tagged "Le" (.arr [lhs.toJson, rhs.toJson])
  | and f g => .tagged "And" (.arr [f.toJson, g.toJson])
  | or f g => .tagged "Or" (.arr [f.toJson, g.toJson])

/-- A formula from JSON. -/
def Formula.ofJson? : Json → Option Formula
  | .obj [("Not", f)] => (ofJson? f).map not
  | .obj [("Eq", .arr [lhs, rhs])] => do return eq (← Term.ofJson? lhs) (← Term.ofJson? rhs)
  | .obj [("Lt", .arr [lhs, rhs])] => do return lt (← Term.ofJson? lhs) (← Term.ofJson? rhs)
  | .obj [("Le", .arr [lhs, rhs])] => do return le (← Term.ofJson? lhs) (← Term.ofJson? rhs)
  | .obj [("And", .arr [f, g])] => do return and (← ofJson? f) (← ofJson? g)
  | .obj [("Or", .arr [f, g])] => do return or (← ofJson? f) (← ofJson? g)
  | j =>
    match j.unit? with
    | some "True" => some true
    | some "False" => some false
    | _ => none

end AlarmDischarge
