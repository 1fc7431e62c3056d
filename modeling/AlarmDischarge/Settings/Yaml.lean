import AlarmDischarge.Settings.File
import AlarmDischarge.Yaml.Reader

/-!
# `AlarmDischarge.Settings.Yaml`: settings files in YAML

A settings file in YAML is a document with two entries, `version` and `verifier`. Entries of the
settings that are left out have their defaults. This is one format with which `Settings.parse` and
`Settings.render` can be run; what is proved of them does not depend on it.

Main definitions: `SettingsFile.ofYaml?`, `SettingsFile.yamlText`, `SettingsFormat.yaml`.
-/

set_option autoImplicit false

namespace AlarmDischarge

namespace Yaml

/-- The entries of a mapping in a document; where nothing is written there are none. Keys have to be
scalars, and references are followed. -/
def entries? (root y : Yaml) : Option (List (String × Yaml)) :=
  match root.follow y with
  | map _ entries => entries.mapM fun (key, value) =>
    (root.follow key).text?.map (·, root.follow value)
  | y => if y.isNothing then some [] else none

/-- An entry that may be left out but not repeated. -/
def entry? {α : Type} (default : α) (item : Yaml → Option α) (name : String)
    (entries : List (String × Yaml)) : Option α :=
  match entries.filter (fun e => e.1 == name) with
  | [] => some default
  | [(_, value)] => item value
  | _ => none

end Yaml

namespace SettingsFile

/-- Settings from a mapping in a document; entries with other names are passed over. -/
def settingsOfYaml? (root y : Yaml) : Option Settings := do
  let entries ← root.entries? y
  return ⟨← Yaml.entry? Settings.default.enabled Yaml.bool? "enabled" entries,
    ← Yaml.entry? Settings.default.sameProcedureOnly Yaml.bool? "same_procedure_only" entries,
    ← Yaml.entry? Settings.default.maxIterations Yaml.uint64? "max_iterations" entries,
    ← Yaml.entry? Settings.default.decision
      (fun v => v.choice?.bind Decision.Kind.ofText?) "decision" entries,
    ← Yaml.entry? Settings.default.logCondition Yaml.bool? "log_vc" entries⟩

/-- A settings file from a document, which has no entries other than its two. The version may be
written as absent. -/
def ofYaml? (root : Yaml) : Option SettingsFile := do
  let entries ← root.entries? root
  if entries.all (fun e => e.1 == "version" || e.1 == "verifier") then
    return ⟨← Yaml.entry? none (Yaml.option? Yaml.uint32?) "version" entries,
      ← Yaml.entry? Settings.default (settingsOfYaml? root) "verifier" entries⟩
  else none

/-- A truth value as YAML. -/
def flagText (b : Bool) : String := if b then "true" else "false"

/-- A version as YAML. -/
def versionText : Option UInt32 → String
  | none => "null"
  | some version => version.toNat.repr

/-- A settings file as YAML. -/
def yamlText (f : SettingsFile) : String :=
  "version: " ++ versionText f.version ++ "\nverifier:\n" ++
    "  enabled: " ++ flagText f.settings.enabled ++ "\n" ++
    "  same_procedure_only: " ++ flagText f.settings.sameProcedureOnly ++ "\n" ++
    "  max_iterations: " ++ f.settings.maxIterations.toNat.repr ++ "\n" ++
    "  decision: " ++ f.settings.decision.text ++ "\n" ++
    "  log_vc: " ++ flagText f.settings.logCondition ++ "\n"

end SettingsFile

/-- Settings files in YAML. -/
def SettingsFormat.yaml : SettingsFormat where
  read text := (Yaml.parse? text).bind SettingsFile.ofYaml?
  write f := some f.yamlText

end AlarmDischarge
