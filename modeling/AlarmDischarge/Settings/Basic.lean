import AlarmDischarge.Decision
import AlarmDischarge.Propagation

/-!
# `AlarmDischarge.Settings.Basic`: what a verifier can be told

Main definitions:

* `Settings`: the choices and their defaults (`VerifierConfig`);
* `Settings.Error`, `Settings.Error.message`: why settings are refused (`ConfigError`);
* `Settings.validate`: the number of iterations has to be positive and bounded (`validate`);
* `Settings.parseDecision`: a decision procedure from its name, in any case of letters (`from_str`
  of `DecisionKind`).
-/

set_option autoImplicit false

namespace AlarmDischarge

/-- The settings of a verifier. -/
structure Settings where
  /-- whether alarms are verified at all -/
  enabled : Bool := true
  /-- whether slices stop at the border of the procedure -/
  sameProcedureOnly : Bool := true
  /-- the cap on visits when facts are moved -/
  maxIterations : UInt64 := Propagation.defaultCap
  /-- which procedure judges conditions -/
  decision : Decision.Kind := .assumeValid
  /-- whether each condition is noted in the journal -/
  logCondition : Bool := true
deriving DecidableEq

/-- What can go wrong with a file. -/
inductive FileFault where
  /-- there is no such file, or no such directory to write to -/
  | missing
  /-- the bytes are no UTF-8 text -/
  | notText
deriving DecidableEq

/-- The message for a file fault. -/
def FileFault.message : FileFault → String
  | missing => "No such file or directory (os error 2)"
  | notText => "stream did not contain valid UTF-8"

namespace Settings

/-- The settings of a verifier that is told nothing. -/
def default : Settings := {}

/-- The largest cap on visits that can be set. -/
def maxIterationsLimit : UInt64 := 10000000

/-- Why settings are refused. -/
inductive Error where
  /-- a value outside the range of its field -/
  | range (field value least greatest hint : String)
  /-- a decision procedure that is not built in -/
  | unknownDecision (name : String)
  /-- a file that does not say which version of the format it follows -/
  | missingVersion
  /-- a file that follows a version which cannot be read -/
  | unsupportedVersion (found : UInt32) (supported : List UInt32)
  /-- a file that cannot be read as text -/
  | file (fault : FileFault)
  /-- a text that is not a settings document -/
  | malformed
deriving DecidableEq

/-- The message for a refusal. -/
def Error.message : Error → String
  | range field value least greatest hint =>
    "Invalid range for field '" ++ field ++ "': " ++ value ++ " not in " ++ least ++ "..=" ++
      greatest ++ ". " ++ hint
  | unknownDecision name =>
    "Unknown decision procedure '" ++ name ++ "'. Valid procedures: assume_valid, reject_all"
  | missingVersion =>
    "Missing 'version' field in configuration file. Add 'version: 1' to the top of your YAML file."
  | unsupportedVersion found supported =>
    "Unsupported configuration version " ++ found.toNat.repr ++ ". Supported versions: " ++
      ", ".intercalate (supported.map fun v => v.toNat.repr)
  | file fault => "IO error: " ++ fault.message
  | malformed => "YAML parsing error"

/-- Settings are refused if the cap on visits is zero or beyond the limit. -/
def validate (s : Settings) : Except Error Unit :=
  if s.maxIterations = 0 ∨ maxIterationsLimit < s.maxIterations then
    .error (.range "max_iterations" s.maxIterations.toNat.repr "1" maxIterationsLimit.toNat.repr
      "Worklist iterations must be finite")
  else .ok ()

/-- The built-in procedure with a name in any case of letters. Only the letters of ASCII change
case: no other letter has one of the letters of a name as its lower case. -/
def parseDecision (name : String) : Except Error Decision.Kind :=
  match Decision.Kind.ofText? (name.map Char.toLower) with
  | some kind => .ok kind
  | none => .error (.unknownDecision name)

end Settings

end AlarmDischarge
