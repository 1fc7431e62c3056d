import AlarmDischarge.Code.Expr.Text
import AlarmDischarge.Node

/-!
# `AlarmDischarge.Alarm`: alarms of the numeric analysis

An alarm says that an operation at a node may go wrong. The numeric analysis has settled some alarms
already; the others are unresolved and are what the verifier works on.

Main definitions:

* `Hazard`: the operation (`AlarmExp`), with its `Location`;
* `Alarm`, `Alarm.Status`: the alarm and what is known about it (`AlarmStatus`);
* `Alarm.isUnresolved`, `Alarm.unresolved`: `is_unresolved` and `filter_unresolved`.
-/

set_option autoImplicit false

namespace AlarmDischarge

/-- A line of a source file. -/
structure Location where
  file : String := ""
  line : UInt32 := 0
deriving DecidableEq

/-- A location in written form. -/
def Location.text (loc : Location) : String := loc.file ++ ":" ++ loc.line.toNat.repr

/-- The operation that an alarm is about. -/
inductive Hazard where
  /-- an array element -/
  | element (array : LValue) (subscript : Expr) (loc : Location)
  /-- memory behind a pointer -/
  | deref (address : Expr) (loc : Location)
  /-- a division, which fails on zero -/
  | division (numerator denominator : Expr) (loc : Location)
  /-- a library function that writes to a buffer -/
  | libraryCall (function : String) (args : List Expr) (loc : Location)
deriving DecidableEq

namespace Hazard

/-- Where the operation stands in the source. -/
def loc : Hazard → Location
  | element _ _ loc => loc
  | deref _ loc => loc
  | division _ _ loc => loc
  | libraryCall _ _ loc => loc

/-- The operation in C notation. -/
def text : Hazard → String
  | element array subscript _ => array.text ++ "[" ++ subscript.text ++ "]"
  | deref address _ => "*(" ++ address.text ++ ")"
  | division numerator denominator _ => numerator.text ++ " / " ++ denominator.text
  | libraryCall function args _ =>
    function ++ "(" ++ ", ".intercalate (args.map Expr.text) ++ ")"

end Hazard

/-- What the numeric analysis found out about an alarm. -/
inductive Alarm.Status where
  /-- the operation is safe -/
  | proven
  /-- the operation may go wrong -/
  | unproven
  /-- the operation is never reached -/
  | unreachable
deriving DecidableEq

/-- A status in written form. -/
def Alarm.Status.text : Alarm.Status → String
  | proven => "proven"
  | unproven => "UNPROVEN"
  | unreachable => "bot"

/-- An alarm: an operation at a node, what is known about it, and a remark that may be empty. -/
structure Alarm where
  node : Node
  hazard : Hazard
  status : Alarm.Status
  remark : String := ""
deriving DecidableEq

namespace Alarm

/-- Whether the numeric analysis has left the alarm open. -/
def isUnresolved (a : Alarm) : Bool := a.status == .unproven

/-- The open alarms of a list, in its order. -/
def unresolved (alarms : List Alarm) : List Alarm := alarms.filter isUnresolved

/-- An alarm in written form. -/
def text (a : Alarm) : String :=
  a.hazard.text ++ " @" ++ a.node.text ++ ":  " ++ a.hazard.loc.text ++ " " ++ a.status.text ++
    (if a.remark = "" then "" else " (" ++ a.remark ++ ")")

end Alarm

end AlarmDischarge
