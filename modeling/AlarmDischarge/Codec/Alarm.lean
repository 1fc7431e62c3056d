import AlarmDischarge.Alarm
import AlarmDischarge.Codec.Code

/-!
# `AlarmDischarge.Codec.Alarm`: alarms in JSON

A remark (`desc`) is left out when it is empty.

Main definitions: `toJson` and `ofJson?` of `Location`, `Hazard` (`AlarmExp`), `Alarm.Status` and
`Alarm`.
-/

set_option autoImplicit false

namespace AlarmDischarge

/-- A location as JSON. -/
def Location.toJson (loc : Location) : Json :=
  .obj [("file", .str loc.file), ("line", .ofUInt32 loc.line)]

/-- A location from JSON. -/
def Location.ofJson? (j : Json) : Option Location :=
  match j.record? ["file", "line"] with
  | some [file, line] => do
    return ⟨← Json.required? Json.text? file, ← Json.required? Json.uint32? line⟩
  | _ => none

namespace Hazard

/-- An operation as JSON. -/
def toJson : Hazard → Json
  | element array subscript loc =>
    .tagged "ArrayExp" (.obj [("lval", array.toJson), ("index", subscript.toJson),
      ("loc", loc.toJson)])
  | deref address loc =>
    .tagged "DerefExp" (.obj [("exp", address.toJson), ("loc", loc.toJson)])
  | division numerator denominator loc =>
    .tagged "DivExp" (.obj [("numerator", numerator.toJson), ("denominator", denominator.toJson),
      ("loc", loc.toJson)])
  | libraryCall function args loc =>
    .tagged "BufferOverrunLib" (.obj [("name", .str function), ("args", .ofList Expr.toJson args),
      ("loc", loc.toJson)])

/-- An operation from JSON. -/
def ofJson? : Json → Option Hazard
  | .obj [("ArrayExp", .obj fields)] => do
    return element (← (fields.lookup "lval").bind LValue.ofJson?)
      (← (fields.lookup "index").bind Expr.ofJson?)
      (← (fields.lookup "loc").bind Location.ofJson?)
  | .obj [("DerefExp", .obj fields)] => do
    return deref (← (fields.lookup "exp").bind Expr.ofJson?)
      (← (fields.lookup "loc").bind Location.ofJson?)
  | .obj [("DivExp", .obj fields)] => do
    return division (← (fields.lookup "numerator").bind Expr.ofJson?)
      (← (fields.lookup "denominator").bind Expr.ofJson?)
      (← (fields.lookup "loc").bind Location.ofJson?)
  | .obj [("BufferOverrunLib", .obj fields)] => do
    return libraryCall (← (fields.lookup "name").bind Json.text?)
      (← (fields.lookup "args").bind (Json.list? Expr.ofJson?))
      (← (fields.lookup "loc").bind Location.ofJson?)
  | _ => none

end Hazard

namespace Alarm.Status

/-- The name of a status in the exchange format. -/
def name : Status → String
  | proven => "Proven"
  | unproven => "Unproven"
  | unreachable => "BotAlarm"

/-- A status as JSON. -/
def toJson (s : Status) : Json := .str s.name

/-- A status from JSON. -/
def ofJson? (j : Json) : Option Status :=
  j.unit?.bind fun s => [proven, unproven, unreachable].find? (fun status => status.name == s)

end Alarm.Status

namespace Alarm

/-- An alarm as JSON. -/
def toJson (a : Alarm) : Json :=
  .obj ([("node", a.node.toJson), ("exp", a.hazard.toJson), ("status", a.status.toJson)] ++
    if a.remark = "" then [] else [("desc", .str a.remark)])

/-- An alarm from JSON. -/
def ofJson? (j : Json) : Option Alarm :=
  match j.record? ["node", "exp", "status", "desc"] with
  | some [node, hazard, status, remark] => do
    return ⟨← Json.required? Node.ofJson? node, ← Json.required? Hazard.ofJson? hazard,
      ← Json.required? Status.ofJson? status, ← Json.defaulted? "" Json.text? remark⟩
  | _ => none

end Alarm

end AlarmDischarge
