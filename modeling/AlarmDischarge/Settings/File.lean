import AlarmDischarge.Codec.Settings

/-!
# `AlarmDischarge.Settings.File`: settings files

A settings file (`ConfigFileV1`) names the version of the format and the settings of the verifier.
How such a record is written down is left open: a `SettingsFormat` is a reader and a writer of it, as
`from_str` and `to_string` of `serde_yaml` are. Reading comes first, then the version is checked,
then the settings.

Main definitions:

* `SettingsFile`: a version, if one is named, and settings, with its JSON form;
* `SettingsFile.accept`: the checks;
* `SettingsFormat`, `SettingsFormat.ReadsBack`: a format, and that it reads what it writes;
* `Settings.parse`, `Settings.load`: settings from the text of a file (`from_yaml_str`), and from
  its bytes (`from_yaml_file`);
* `Settings.render`: the text of a file with given settings (`to_yaml`);
* `Settings.reload`: settings written to a file and read from it.
-/

set_option autoImplicit false

namespace AlarmDischarge

/-- What a settings file says. -/
structure SettingsFile where
  version : Option UInt32 := none
  settings : Settings := {}
deriving DecidableEq

namespace SettingsFile

/-- The versions of the format that can be read. -/
def supportedVersions : List UInt32 := [1]

/-- A settings file as JSON. -/
def toJson (f : SettingsFile) : Json :=
  .obj [("version", .ofOption .ofUInt32 f.version), ("verifier", f.settings.toJson)]

/-- A settings file from JSON, which has no fields other than its two. -/
def ofJson? (j : Json) : Option SettingsFile :=
  let known := match j with
    | .obj fields => fields.all fun f => f.1 == "version" || f.1 == "verifier"
    | _ => true
  match known, j.record? ["version", "verifier"] with
  | true, some [version, settings] => do
    return ⟨← Json.defaulted? none (Json.option? Json.uint32?) version,
      ← Json.defaulted? Settings.default Settings.ofJson? settings⟩
  | _, _ => none

/-- The settings of a file, if its version can be read and the settings are valid. -/
def accept (f : SettingsFile) : Except Settings.Error Settings :=
  match f.version with
  | none => .error .missingVersion
  | some version =>
    if version ∈ supportedVersions then do
      f.settings.validate
      return f.settings
    else .error (.unsupportedVersion version supportedVersions)

end SettingsFile

/-- How settings files are written down. -/
structure SettingsFormat where
  /-- what a text says, if it is a settings document -/
  read : String → Option SettingsFile
  /-- the text of a file, if it can be written -/
  write : SettingsFile → Option String

/-- Every file can be written, and its text says what the file says. -/
def SettingsFormat.ReadsBack (format : SettingsFormat) : Prop :=
  ∀ f, (format.write f).bind format.read = some f

namespace Settings

variable (format : SettingsFormat)

/-- Settings from the text of a file. -/
def parse (text : String) : Except Error Settings :=
  match format.read text with
  | some f => f.accept
  | none => .error .malformed

/-- Settings from the bytes of a file, or from a file that is not there. -/
def load (bytes : Option ByteArray) : Except Error Settings :=
  match bytes with
  | none => .error (.file .missing)
  | some bytes =>
    match String.fromUTF8? bytes with
    | none => .error (.file .notText)
    | some text => parse format text

/-- The text of a file with given settings, which are not checked. -/
def render (s : Settings) : Except Error String :=
  match format.write ⟨some 1, s⟩ with
  | some text => .ok text
  | none => .error .malformed

/-- Settings from the text of a file with given settings. -/
def reload (s : Settings) : Except Error Settings := do
  parse format (← render format s)

end Settings

end AlarmDischarge
