import AlarmDischarge.Json.Access
import AlarmDischarge.Settings.Basic

/-!
# `AlarmDischarge.Codec.Settings`: settings in JSON

Every setting has a default and may be left out; names that are not known are passed over.

Main definitions: `toJson` and `ofJson?` of `Decision.Kind` and `Settings` (`DecisionKind`,
`VerifierConfig`).
-/

set_option autoImplicit false

namespace AlarmDischarge

/-- A kind of decision procedure as JSON. -/
def Decision.Kind.toJson (k : Decision.Kind) : Json := .str k.text

/-- A kind of decision procedure from JSON. -/
def Decision.Kind.ofJson? (j : Json) : Option Decision.Kind := j.unit?.bind ofText?

namespace Settings

/-- Settings as JSON. -/
def toJson (s : Settings) : Json :=
  .obj [("enabled", .bool s.enabled), ("same_procedure_only", .bool s.sameProcedureOnly),
    ("max_iterations", .ofUInt64 s.maxIterations), ("decision", s.decision.toJson),
    ("log_vc", .bool s.logCondition)]

/-- Settings from JSON. -/
def ofJson? (j : Json) : Option Settings :=
  match j.record? ["enabled", "same_procedure_only", "max_iterations", "decision", "log_vc"] with
  | some [enabled, sameProcedureOnly, maxIterations, decision, logCondition] => do
    return ⟨← Json.defaulted? default.enabled Json.bool? enabled,
      ← Json.defaulted? default.sameProcedureOnly Json.bool? sameProcedureOnly,
      ← Json.defaulted? default.maxIterations Json.uint64? maxIterations,
      ← Json.defaulted? default.decision Decision.Kind.ofJson? decision,
      ← Json.defaulted? default.logCondition Json.bool? logCondition⟩
  | _ => none

end Settings

end AlarmDischarge
