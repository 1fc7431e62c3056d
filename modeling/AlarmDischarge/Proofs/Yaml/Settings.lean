import AlarmDischarge.Proofs.Digit
import AlarmDischarge.Proofs.Yaml.Mapping
import AlarmDischarge.Settings.Yaml

/-!
# `AlarmDischarge.Proofs.Yaml.Settings`: settings files are read back from YAML

The text of a settings file (`ConfigFileV1`) is a document with two levels (`yamlText_eq`), so that
`Yaml.parse?_documentText` reads it. The values of its entries are single words, and each word is
read as the value it was written from. So the document gives the file back (`ofYaml?_document`),
whatever its version and its settings are, and YAML is a format that reads what it writes
(`readsBack_yaml`).
-/

set_option autoImplicit false

namespace AlarmDischarge

/-! ### Values as words -/

namespace Yaml

theorem isNameChar_of_isDigit {c : Char} (hc : c.isDigit = true) : isNameChar c = true := by
  unfold isNameChar Char.isAlphanum
  rw [hc, Bool.or_true, Bool.true_or]

theorem isWord_repr (n : Nat) : IsWord n.repr := by
  unfold IsWord
  rw [Nat.toList_repr]
  exact ⟨Nat.toDigits_ne_nil, fun c hc => isNameChar_of_isDigit (Text.isDigit_toDigits n c hc)⟩

theorem isWord_flagText (b : Bool) : IsWord (SettingsFile.flagText b) := by
  cases b with
  | true => decide
  | false => decide

theorem isWord_decisionText (kind : Decision.Kind) : IsWord kind.text := by
  cases kind with
  | assumeValid => decide
  | rejectAll => decide

theorem isWord_versionText (version : Option UInt32) : IsWord (SettingsFile.versionText version) := by
  cases version with
  | none => decide
  | some n => exact isWord_repr n.toNat

/-! ### Words as values -/

/-- A number that does not begin with a zero is decimal. -/
theorem unsigned?_of_head? {cs : List Char} (h : cs.head? ≠ some '0') :
    unsigned? cs = Text.number? 10 cs := by
  unfold unsigned?
  split
  · exact absurd rfl h
  · exact absurd rfl h
  · exact absurd rfl h
  · exact absurd rfl h
  · exact absurd rfl h
  · rfl

theorem unsigned?_toDigits (n : Nat) : unsigned? (Nat.toDigits 10 n) = some n := by
  rcases Nat.eq_zero_or_pos n with rfl | hpos
  · rfl
  · rw [unsigned?_of_head? (Text.head?_toDigits hpos)]
    exact Text.number?_toDigits (by decide) (by decide) n

theorem nat?_repr (n : Nat) : (scalar {} .plain n.repr).nat? = some n := by
  unfold nat? valueText?
  rw [Option.bind_some, Nat.toList_repr]
  split
  · rename_i cs hdigits
    have hplus := Text.isDigit_toDigits n '+' (by rw [hdigits]; exact List.mem_cons_self)
    exact absurd hplus (by decide)
  · exact unsigned?_toDigits n

theorem uint64?_repr (n : UInt64) : (scalar {} .plain n.toNat.repr).uint64? = some n := by
  unfold uint64?
  rw [nat?_repr, Option.bind_some, if_pos n.toNat_lt, UInt64.ofNat_toNat]

theorem bool?_flagText (b : Bool) : (scalar {} .plain (SettingsFile.flagText b)).bool? = some b := by
  cases b with
  | true => rfl
  | false => rfl

theorem uint32?_repr (n : UInt32) : (scalar {} .plain n.toNat.repr).uint32? = some n := by
  unfold uint32?
  rw [nat?_repr, Option.bind_some, if_pos n.toNat_lt, UInt32.ofNat_toNat]

/-- The words for an absent value are no numbers. -/
theorem nat?_of_mem_nullWords : ∀ w ∈ "" :: nullWords, (scalar {} .plain w).nat? = none := by
  decide +kernel

/-- So a number is not taken for an absent value. -/
theorem option?_versionText (version : Option UInt32) :
    option? uint32? (scalar {} .plain (SettingsFile.versionText version)) = some version := by
  cases version with
  | none => rfl
  | some n =>
    have hword : ¬(n.toNat.repr = "" ∨ n.toNat.repr ∈ nullWords) := by
      intro h
      have hnone := nat?_of_mem_nullWords _ (List.mem_cons.mpr h)
      rw [nat?_repr] at hnone
      cases hnone
    refine (if_neg hword).trans ?_
    exact congrArg (Option.map some) (uint32?_repr n)

end Yaml

theorem Decision.Kind.ofText?_text (kind : Decision.Kind) : ofText? kind.text = some kind := by
  cases kind with
  | assumeValid => rfl
  | rejectAll => rfl

namespace SettingsFile

/-! ### Settings as a document -/

/-- The settings as the entries of a file. -/
def settingsEntries (s : Settings) : List (String × String) :=
  [("enabled", flagText s.enabled), ("same_procedure_only", flagText s.sameProcedureOnly),
    ("max_iterations", s.maxIterations.toNat.repr), ("decision", s.decision.text),
    ("log_vc", flagText s.logCondition)]

theorem isEntry_of_mem_settingsEntries (s : Settings) : ∀ e ∈ settingsEntries s, Yaml.IsEntry e := by
  have hkeys : ∀ e ∈ settingsEntries s, Yaml.IsKey e.1 := by
    unfold settingsEntries
    simp only [List.forall_mem_cons]
    decide
  have hvalues : ∀ e ∈ settingsEntries s, Yaml.IsWord e.2 := by
    unfold settingsEntries
    simp [Yaml.isWord_flagText, Yaml.isWord_repr, Yaml.isWord_decisionText]
  exact fun e he => ⟨hkeys e he, hvalues e he⟩

/-- The text of a file is a document with two levels. -/
theorem yamlText_eq (f : SettingsFile) :
    f.yamlText = .ofList (Yaml.documentText [("version", versionText f.version)] "verifier"
      (settingsEntries f.settings)) := by
  apply String.toList_injective
  unfold yamlText
  rw [String.toList_ofList]
  simp [String.toList_append, settingsEntries, Yaml.documentText, Yaml.entryText, Yaml.keyText]

theorem parse?_yamlText (f : SettingsFile) :
    Yaml.parse? f.yamlText = some (Yaml.document [("version", versionText f.version)] "verifier"
      (settingsEntries f.settings)) := by
  have hkey : Yaml.IsKey "version" := by decide
  have hversion : ∀ e ∈ [("version", versionText f.version)], Yaml.IsEntry e := by
    intro e he
    rw [List.mem_singleton.mp he]
    exact ⟨hkey, Yaml.isWord_versionText f.version⟩
  rw [yamlText_eq]
  exact Yaml.parse?_documentText (List.cons_ne_nil _ _) hversion (by decide) (List.cons_ne_nil _ _)
    (isEntry_of_mem_settingsEntries f.settings)

/-- The entries are read back as the settings. -/
theorem settingsOfYaml?_entries (root : Yaml) (s : Settings) :
    settingsOfYaml? root (.map {} ((settingsEntries s).map Yaml.entryNode)) = some s := by
  -- Each name is found once among the entries, so each value is read as that of its field.
  show (do
    let enabled ← (Yaml.scalar {} .plain (flagText s.enabled)).bool?
    let sameProcedureOnly ← (Yaml.scalar {} .plain (flagText s.sameProcedureOnly)).bool?
    let maxIterations ← (Yaml.scalar {} .plain s.maxIterations.toNat.repr).uint64?
    let decision ← Decision.Kind.ofText? s.decision.text
    let logCondition ← (Yaml.scalar {} .plain (flagText s.logCondition)).bool?
    return Settings.mk enabled sameProcedureOnly maxIterations decision logCondition) = some s
  rw [Yaml.bool?_flagText, Yaml.bool?_flagText, Yaml.uint64?_repr, Decision.Kind.ofText?_text,
    Yaml.bool?_flagText]
  rfl

/-- The document says what the file was written from, whether or not that is accepted. -/
theorem ofYaml?_document (f : SettingsFile) :
    ofYaml? (Yaml.document [("version", versionText f.version)] "verifier"
      (settingsEntries f.settings)) = some f := by
  show (do
    let version ← Yaml.option? Yaml.uint32? (.scalar {} .plain (versionText f.version))
    let settings ← settingsOfYaml? _ (.map {} ((settingsEntries f.settings).map Yaml.entryNode))
    return SettingsFile.mk version settings) = _
  rw [Yaml.option?_versionText, settingsOfYaml?_entries]
  rfl

end SettingsFile

/-- What is written in YAML is read back, for every version and all settings. -/
theorem SettingsFormat.readsBack_yaml : SettingsFormat.yaml.ReadsBack := by
  intro f
  unfold SettingsFormat.yaml
  dsimp only
  rw [Option.bind_some, SettingsFile.parse?_yamlText, Option.bind_some,
    SettingsFile.ofYaml?_document]

end AlarmDischarge
