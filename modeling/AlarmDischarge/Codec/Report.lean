import AlarmDischarge.Codec.Alarm
import AlarmDischarge.Json.Printer
import AlarmDischarge.Json.Reader
import AlarmDischarge.Report

/-!
# `AlarmDischarge.Codec.Report`: reports in JSON

Main definitions: `toJson` and `ofJson?` of `Verdict` and `Report` (`AlarmVerdict`,
`VerificationReport`); `Report.toText` and `Report.ofText?`, the text of a report file as `to_json`
gives it and `write_json` writes it.
-/

set_option autoImplicit false

namespace AlarmDischarge

namespace Verdict

/-- A verdict as JSON. -/
def toJson (v : Verdict) : Json :=
  .obj [("alarm", v.alarm.toJson), ("vc", .ofOption .str v.condition),
    ("discharged", .bool v.discharged), ("slice_size", .ofUInt64 v.sliceSize),
    ("iterations", .ofUInt64 v.iterations), ("converged", .bool v.converged)]

/-- A verdict from JSON. -/
def ofJson? (j : Json) : Option Verdict :=
  match j.record? ["alarm", "vc", "discharged", "slice_size", "iterations", "converged"] with
  | some [alarm, condition, discharged, sliceSize, iterations, converged] => do
    return ⟨← Json.required? Alarm.ofJson? alarm,
      ← Json.defaulted? none (Json.option? Json.text?) condition,
      ← Json.required? Json.bool? discharged, ← Json.required? Json.uint64? sliceSize,
      ← Json.required? Json.uint64? iterations, ← Json.required? Json.bool? converged⟩
  | _ => none

end Verdict

namespace Report

/-- A report as JSON. -/
def toJson (r : Report) : Json :=
  .obj [("decision", .str r.decision), ("verdicts", .ofList Verdict.toJson r.verdicts)]

/-- A report from JSON. -/
def ofJson? (j : Json) : Option Report :=
  match j.record? ["decision", "verdicts"] with
  | some [decision, verdicts] => do
    return ⟨← Json.required? Json.text? decision,
      ← Json.required? (Json.list? Verdict.ofJson?) verdicts⟩
  | _ => none

/-- A report as the text of a file. -/
def toText (r : Report) : String := r.toJson.pretty

/-- How deep a report file may be nested and still be read. -/
def depthLimit : Nat := 127

/-- A report from the text of a file. -/
def ofText? (s : String) : Option Report := do
  let j ← Json.parse? s
  if j.depth ≤ depthLimit then ofJson? j else none

end Report

end AlarmDischarge
