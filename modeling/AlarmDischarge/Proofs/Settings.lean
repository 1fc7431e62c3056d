import AlarmDischarge.Proofs.Yaml.Settings
import AlarmDischarge.Verifier

/-!
# `AlarmDischarge.Proofs.Settings`: settings files and the verifiers made of them

Settings (`VerifierConfig`) are checked in two places: when a file is read (`from_yaml_str`), and
when a verifier is made (`new` of `AlarmVerifier`). The two agree, and what a file says can be written
to a file again (`to_yaml`).

Nothing is known of the format of files but that it reads what it writes, so all that reading does
beyond the format is `SettingsFile.accept`:

* `accept_eq`: a file of version 1 is judged by its settings alone;
* `reload_of_isCapped`, `reload_of_not_isCapped`: settings that are written and read;
* `ofSettings_of_isCapped`, `ofSettings_of_not_isCapped`: a verifier with these settings;
* `parse_eq_ok`: any text that is accepted;
* `files_agree_with_verifiers`: the three together.
-/

set_option autoImplicit false

namespace AlarmDischarge.Settings

/-! ### Which settings are valid -/

/-- Visits are capped, and the cap is not too large. -/
def IsCapped (s : Settings) : Prop :=
  1 ≤ s.maxIterations.toNat ∧ s.maxIterations.toNat ≤ 10000000

instance (s : Settings) : Decidable s.IsCapped := inferInstanceAs (Decidable (_ ∧ _))

/-- Why settings with another cap are refused. -/
def capError (s : Settings) : Error :=
  .range "max_iterations" s.maxIterations.toNat.repr "1" "10000000"
    "Worklist iterations must be finite"

variable {s : Settings}

/-- The cap is refused exactly outside its range. -/
theorem cap_refused_iff :
    (s.maxIterations = 0 ∨ maxIterationsLimit < s.maxIterations) ↔ ¬s.IsCapped := by
  -- Words of 64 bits are compared as the numbers that they are.
  unfold IsCapped maxIterationsLimit
  rw [← UInt64.toNat_inj, UInt64.lt_iff_toNat_lt]
  simp only [UInt64.reduceToNat]
  omega

theorem validate_of_isCapped (h : s.IsCapped) : s.validate = .ok () :=
  if_neg fun hrefused => cap_refused_iff.mp hrefused h

theorem validate_of_not_isCapped (h : ¬s.IsCapped) : s.validate = .error s.capError :=
  if_pos (cap_refused_iff.mpr h)

theorem ofSettings_of_isCapped (h : s.IsCapped) :
    Verifier.ofSettings s = .ok { settings := s, decision := s.decision.procedure } := by
  rw [Verifier.ofSettings, validate_of_isCapped h]

theorem ofSettings_of_not_isCapped (h : ¬s.IsCapped) :
    Verifier.ofSettings s = .error (.settings s.capError) := by
  rw [Verifier.ofSettings, validate_of_not_isCapped h]

theorem exists_ofSettings_iff : (∃ v, Verifier.ofSettings s = .ok v) ↔ s.IsCapped := by
  refine ⟨?_, fun h => ⟨_, ofSettings_of_isCapped h⟩⟩
  rintro ⟨v, hv⟩
  by_contra h
  rw [ofSettings_of_not_isCapped h] at hv
  cases hv

/-! ### Files -/

/-- A file of the version that can be read is judged by its settings. -/
theorem accept_eq (s : Settings) :
    SettingsFile.accept ⟨some 1, s⟩ = s.validate.map fun _ => s := rfl

/-- A file that is accepted has the only version that can be read, and valid settings. -/
theorem accept_eq_ok {f : SettingsFile} (h : f.accept = .ok s) : f = ⟨some 1, s⟩ ∧ s.IsCapped := by
  obtain ⟨version, settings⟩ := f
  cases version with
  | none => cases h
  | some version =>
    unfold SettingsFile.accept at h
    dsimp only at h
    split at h
    · rename_i hversion
      have hone : version = 1 := List.mem_singleton.mp hversion
      by_cases hcap : settings.IsCapped
      · rw [validate_of_isCapped hcap] at h
        have hs : settings = s := Except.ok.inj h
        subst hs hone
        exact ⟨rfl, hcap⟩
      · rw [validate_of_not_isCapped hcap] at h
        cases h
    · cases h

variable {format : SettingsFormat}

/-- A text that is accepted says that it has version 1, and has valid settings. -/
theorem parse_eq_ok {text : String} (h : parse format text = .ok s) :
    format.read text = some ⟨some 1, s⟩ ∧ s.IsCapped := by
  unfold parse at h
  split at h
  · rename_i f hread
    obtain ⟨rfl, hcap⟩ := accept_eq_ok h
    exact ⟨hread, hcap⟩
  · cases h

/-- What is written is read back, and only then checked. -/
theorem reload_eq (hformat : format.ReadsBack) (s : Settings) :
    reload format s = SettingsFile.accept ⟨some 1, s⟩ := by
  obtain ⟨text, hwrite, hread⟩ := Option.bind_eq_some_iff.mp (hformat ⟨some 1, s⟩)
  have hrender : render format s = .ok text := by rw [render, hwrite]
  have hparse : parse format text = SettingsFile.accept ⟨some 1, s⟩ := by rw [parse, hread]
  unfold reload
  rw [hrender]
  exact hparse

theorem reload_of_isCapped (hformat : format.ReadsBack) (h : s.IsCapped) :
    reload format s = .ok s := by
  rw [reload_eq hformat, accept_eq, validate_of_isCapped h]
  rfl

theorem reload_of_not_isCapped (hformat : format.ReadsBack) (h : ¬s.IsCapped) :
    reload format s = .error s.capError := by
  rw [reload_eq hformat, accept_eq, validate_of_not_isCapped h]
  rfl

theorem reload_eq_ok_iff (hformat : format.ReadsBack) : reload format s = .ok s ↔ s.IsCapped := by
  refine ⟨fun hreload => ?_, reload_of_isCapped hformat⟩
  by_contra h
  rw [reload_of_not_isCapped hformat h] at hreload
  cases hreload

/-- Reading files, writing them and making verifiers agree on which settings are valid, in any format
that reads what it writes. A text that is accepted is a document of version 1, its settings make a
verifier, and they are read back from the text that they are written as. Of settings as such, those
and only those that make a verifier are read back; all others are refused in both places, for the same
reason. -/
theorem files_agree_with_verifiers (format : SettingsFormat) (hformat : format.ReadsBack)
    (s : Settings) :
    (∀ text, parse format text = .ok s →
      (∃ f, format.read text = some f ∧ f.version = some 1 ∧ f.settings = s) ∧
        (∃ v, Verifier.ofSettings s = .ok v ∧ v.settings = s) ∧ reload format s = .ok s) ∧
    (reload format s = .ok s ↔ ∃ v, Verifier.ofSettings s = .ok v) ∧
    ((∃ v, Verifier.ofSettings s = .ok v) ↔ s.IsCapped) ∧
    ((¬∃ v, Verifier.ofSettings s = .ok v) →
      reload format s = .error s.capError ∧
        Verifier.ofSettings s = .error (.settings s.capError)) := by
  refine ⟨fun text h => ?_, (reload_eq_ok_iff hformat).trans exists_ofSettings_iff.symm,
    exists_ofSettings_iff, fun h => ?_⟩
  · obtain ⟨hread, hcap⟩ := parse_eq_ok h
    exact ⟨⟨_, hread, rfl, rfl⟩, ⟨_, ofSettings_of_isCapped hcap, rfl⟩,
      reload_of_isCapped hformat hcap⟩
  · have hcap : ¬s.IsCapped := fun hcap => h (exists_ofSettings_iff.mpr hcap)
    exact ⟨reload_of_not_isCapped hformat hcap, ofSettings_of_not_isCapped hcap⟩

/-- In YAML, a short file, and settings with the greatest number that a cap could be. -/
theorem short_file_and_greatest_cap :
    (parse .yaml "version: 1\nverifier:\n  max_iterations: 5000\n  decision: reject_all\n" =
        .ok { maxIterations := 5000, decision := .rejectAll } ∧
      reload .yaml { maxIterations := 5000, decision := .rejectAll } =
        .ok { maxIterations := 5000, decision := .rejectAll }) ∧
    (¬(∃ v, Verifier.ofSettings { maxIterations := 18446744073709551615 } = .ok v) ∧
      reload .yaml { maxIterations := 18446744073709551615 } =
        .error (.range "max_iterations" "18446744073709551615" "1" "10000000"
          "Worklist iterations must be finite")) := by
  have haccepted : parse .yaml
      "version: 1\nverifier:\n  max_iterations: 5000\n  decision: reject_all\n" =
        .ok { maxIterations := 5000, decision := .rejectAll } := by
    decide +kernel
  have hlaw := files_agree_with_verifiers .yaml SettingsFormat.readsBack_yaml
  have hrefused : ¬∃ v, Verifier.ofSettings { maxIterations := 18446744073709551615 } = .ok v := by
    rw [(hlaw _).2.2.1]
    decide
  exact ⟨⟨haccepted, ((hlaw _).1 _ haccepted).2.2⟩, hrefused, ((hlaw _).2.2.2 hrefused).1⟩

end AlarmDischarge.Settings
