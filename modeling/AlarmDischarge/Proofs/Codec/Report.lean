import AlarmDischarge.Codec.Logic
import AlarmDischarge.Codec.Report
import AlarmDischarge.Proofs.Codec.Code

/-!
# `AlarmDischarge.Proofs.Codec.Report`: reports are read back from their files

The JSON of terms, formulas, alarms and verdicts represents them, as that of programs does. So the
text of a report file determines the report:

* `Alarm.represents`: an alarm, whose remark (`desc`) is left out when it is empty;
* `Report.represents`: a report (`VerificationReport`), with any verdicts in it;
* `Report.reports_read_back`: what is written is read back, of reports, commands, terms and
  formulas.
-/

set_option autoImplicit false

namespace AlarmDischarge

open Json (Represents)

/-! ### Terms and formulas -/

theorem Term.represents (t : Term) : Represents Term.ofJson? t.toJson t := by
  induction t with
  | var name => exact (Json.represents_text name).tagged (by rw [Json.tagged, ofJson?])
  | int value => exact (Json.represents_int64 value).tagged (by rw [Json.tagged, ofJson?])
  | mul lhs rhs ihl ihr => exact ihl.taggedPair ihr (by rw [Json.tagged, ofJson?])
  | add lhs rhs ihl ihr => exact ihl.taggedPair ihr (by rw [Json.tagged, ofJson?])
  | sub lhs rhs ihl ihr => exact ihl.taggedPair ihr (by rw [Json.tagged, ofJson?])
  | arraySize array ih => exact ih.tagged (by rw [Json.tagged, ofJson?])
  | sizeOf object ih => exact ih.tagged (by rw [Json.tagged, ofJson?])

theorem Formula.represents (f : Formula) : Represents Formula.ofJson? f.toJson f := by
  induction f with
  | true => exact ⟨.str _, rfl⟩
  | false => exact ⟨.str _, rfl⟩
  | not f ih => exact ih.tagged (by rw [Json.tagged, ofJson?])
  | eq lhs rhs => exact lhs.represents.taggedPair rhs.represents (by rw [Json.tagged, ofJson?])
  | lt lhs rhs => exact lhs.represents.taggedPair rhs.represents (by rw [Json.tagged, ofJson?])
  | le lhs rhs => exact lhs.represents.taggedPair rhs.represents (by rw [Json.tagged, ofJson?])
  | and f g ihf ihg => exact ihf.taggedPair ihg (by rw [Json.tagged, ofJson?])
  | or f g ihf ihg => exact ihf.taggedPair ihg (by rw [Json.tagged, ofJson?])

/-! ### Alarms -/

theorem Location.represents (loc : Location) : Represents Location.ofJson? loc.toJson loc := by
  have hfile := Json.represents_text loc.file
  have hline := Json.represents_uint32 loc.line
  refine ⟨.obj (by simp) (by simp [hfile.regular, hline.regular]), ?_⟩
  simp [Location.toJson, Location.ofJson?, Json.record?, List.lookup_cons, hfile.required?_eq,
    hline.required?_eq]

theorem Hazard.represents (h : Hazard) : Represents Hazard.ofJson? h.toJson h := by
  cases h with
  | element array subscript loc =>
    have harray := array.represents
    have hsubscript := subscript.represents
    have hloc := loc.represents
    refine ⟨.tagged (.obj (by simp)
      (by simp [harray.regular, hsubscript.regular, hloc.regular])) _, ?_⟩
    rw [toJson, Json.tagged, ofJson?, harray.field_eq, hsubscript.field_eq, hloc.field_eq]
    all_goals rfl
  | deref address loc =>
    have haddress := address.represents
    have hloc := loc.represents
    refine ⟨.tagged (.obj (by simp) (by simp [haddress.regular, hloc.regular])) _, ?_⟩
    rw [toJson, Json.tagged, ofJson?, haddress.field_eq, hloc.field_eq]
    all_goals rfl
  | division numerator denominator loc =>
    have hnumerator := numerator.represents
    have hdenominator := denominator.represents
    have hloc := loc.represents
    refine ⟨.tagged (.obj (by simp)
      (by simp [hnumerator.regular, hdenominator.regular, hloc.regular])) _, ?_⟩
    rw [toJson, Json.tagged, ofJson?, hnumerator.field_eq, hdenominator.field_eq, hloc.field_eq]
    all_goals rfl
  | libraryCall function args loc =>
    have hfunction := Json.represents_text function
    have hargs := Expr.represents_list args
    have hloc := loc.represents
    refine ⟨.tagged (.obj (by simp)
      (by simp [hfunction.regular, hargs.regular, hloc.regular])) _, ?_⟩
    rw [toJson, Json.tagged, ofJson?, hfunction.field_eq, hargs.field_eq, hloc.field_eq]
    all_goals rfl

theorem Alarm.Status.represents (s : Alarm.Status) :
    Represents Alarm.Status.ofJson? s.toJson s := by
  refine ⟨.str _, ?_⟩
  cases s
  all_goals rfl

/-- An alarm is represented with its remark or, if that is empty, without: a remark that is not
there is read as the empty one. -/
theorem Alarm.represents (a : Alarm) : Represents Alarm.ofJson? a.toJson a := by
  obtain ⟨node, hazard, status, remark⟩ := a
  have hnode := node.represents
  have hhazard := hazard.represents
  have hstatus := status.represents
  have hremark := Json.represents_text remark
  by_cases hempty : remark = ""
  · subst hempty
    refine ⟨.obj (by simp) (by simp [hnode.regular, hhazard.regular, hstatus.regular]), ?_⟩
    simp [Alarm.toJson, Alarm.ofJson?, Json.record?, List.lookup_cons, hnode.required?_eq,
      hhazard.required?_eq, hstatus.required?_eq, Json.defaulted?]
  · refine ⟨.obj (by simp [hempty])
      (by simp [hempty, hnode.regular, hhazard.regular, hstatus.regular, hremark.regular]), ?_⟩
    simp [Alarm.toJson, Alarm.ofJson?, hempty, Json.record?, List.lookup_cons,
      hnode.required?_eq, hhazard.required?_eq, hstatus.required?_eq, hremark.defaulted?_eq]

/-! ### Reports -/

theorem Verdict.represents (v : Verdict) : Represents Verdict.ofJson? v.toJson v := by
  have halarm := v.alarm.represents
  have hcondition : Represents (Json.option? Json.text?) (.ofOption .str v.condition)
      v.condition :=
    .option fun s _ => ⟨Json.represents_text s, nofun⟩
  have hdischarged := Json.represents_bool v.discharged
  have hslice := Json.represents_uint64 v.sliceSize
  have hiterations := Json.represents_uint64 v.iterations
  have hconverged := Json.represents_bool v.converged
  refine ⟨.obj (by simp) (by simp [halarm.regular, hcondition.regular, hdischarged.regular,
    hslice.regular, hiterations.regular, hconverged.regular]), ?_⟩
  simp [Verdict.toJson, Verdict.ofJson?, Json.record?, List.lookup_cons, halarm.required?_eq,
    hcondition.defaulted?_eq, hdischarged.required?_eq, hslice.required?_eq,
    hiterations.required?_eq, hconverged.required?_eq]

namespace Report

theorem represents (r : Report) : Represents Report.ofJson? r.toJson r := by
  have hdecision := Json.represents_text r.decision
  have hverdicts : Represents (Json.list? Verdict.ofJson?) (.ofList Verdict.toJson r.verdicts)
      r.verdicts :=
    .list fun v _ => v.represents
  refine ⟨.obj (by simp) (by simp [hdecision.regular, hverdicts.regular]), ?_⟩
  simp [toJson, ofJson?, Json.record?, List.lookup_cons, hdecision.required?_eq,
    hverdicts.required?_eq]

/-- A report file is read back, unless it is nested beyond what a reader of files takes on. -/
theorem ofText?_toText (r : Report) :
    ofText? r.toText = if r.toJson.depth ≤ depthLimit then some r else none := by
  have hr := r.represents
  unfold ofText? toText
  rw [Json.parse?_pretty hr.regular]
  show (if _ then ofJson? r.toJson else none) = _
  rw [hr.read_eq]

/-- What is written is read back. The JSON of a report is read as the report, and so is the text of
a report file: parsing gives back the JSON that was printed, whatever alarms and texts the report
holds, and however deep they are nested. A reader of files that sets a limit to the depth reads just
the reports within the limit. The same holds of commands, terms and formulas. -/
theorem reports_read_back :
    (∀ r : Report, ofJson? r.toJson = some r ∧ (Json.parse? r.toText).bind ofJson? = some r ∧
      ofText? r.toText = if r.toJson.depth ≤ depthLimit then some r else none) ∧
    (∀ c : Command, Command.ofJson? c.toJson = some c ∧
      (Json.parse? c.toJson.pretty).bind Command.ofJson? = some c) ∧
    (∀ t : Term, Term.ofJson? t.toJson = some t ∧
      (Json.parse? t.toJson.pretty).bind Term.ofJson? = some t) ∧
    (∀ f : Formula, Formula.ofJson? f.toJson = some f ∧
      (Json.parse? f.toJson.pretty).bind Formula.ofJson? = some f) := by
  refine ⟨?_, ?_, ?_, ?_⟩
  · intro r
    exact ⟨r.represents.read_eq, r.represents.parse?_bind, ofText?_toText r⟩
  · intro c
    exact ⟨c.represents.read_eq, c.represents.parse?_bind⟩
  · intro t
    exact ⟨t.represents.read_eq, t.represents.parse?_bind⟩
  · intro f
    exact ⟨f.represents.read_eq, f.represents.parse?_bind⟩

end Report

end AlarmDischarge
