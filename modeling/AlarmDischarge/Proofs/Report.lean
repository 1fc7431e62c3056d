import AlarmDischarge.Verifier
import Mathlib.Data.List.Forall2

/-!
# `AlarmDischarge.Proofs.Report`: the account of a list of alarms

A verifier (`AlarmVerifier`) takes a list of alarms and gives back a report (`VerificationReport`), or
the alarms that remain. This module says that nothing is lost, made twice or moved on the way:

* `Report.dischargedCount_add_remainingCount`, `Report.length_remaining`: the counts of a report add
  up to its verdicts, and count what remains;
* `Verifier.verdicts_reportWith`: pushing one verdict after the other (`report_on_graph`, `skip_all`)
  judges each alarm of the list in its place;
* `Verifier.remainingOn_eq_filter`: what remains is a part of the list, picked alarm by alarm;
* `Verifier.report_accounts_for_alarms`: all of it, together with the agreement between the ways to
  start a verifier.
-/

set_option autoImplicit false

namespace AlarmDischarge

namespace Report

/-- Every verdict is counted, as discharged or as remaining. -/
theorem dischargedCount_add_remainingCount (r : Report) :
    r.dischargedCount + r.remainingCount = r.verdicts.length := by
  have hle : r.dischargedCount ≤ r.verdicts.length := List.countP_le_length
  unfold remainingCount
  omega

/-- As many alarms remain as are counted. -/
theorem length_remaining (r : Report) : r.remaining.length = r.remainingCount := by
  have hsplit := List.length_eq_countP_add_countP (·.discharged) (l := r.verdicts)
  have hremaining : r.remaining.length = r.verdicts.countP (fun w => !w.discharged) := by
    unfold remaining
    rw [List.length_map, List.countP_eq_length_filter]
  unfold remainingCount dischargedCount
  simp only [Bool.not_eq_true, Bool.decide_eq_false] at hsplit
  omega

/-- Verdicts are pushed to the end, in order. -/
theorem foldl_push {α : Type} (r : Report) (judge : α → Verdict) (as : List α) :
    as.foldl (fun r a => r.push (judge a)) r =
      { r with verdicts := r.verdicts ++ as.map judge } := by
  induction as generalizing r with
  | nil => rw [List.foldl_nil, List.map_nil, List.append_nil]
  | cons a as ih =>
    rw [List.foldl_cons, ih]
    simp [push]

end Report

namespace Verifier

variable {μ ν : Type}

/-- What becomes of an unresolved alarm: a verdict, unless the verifier is not enabled. -/
def judge (v : Verifier) (g : NodeGraph) (p : Program.View) (alarm : Alarm) : Verdict :=
  if v.settings.enabled then v.verdict (μ := Unit) g p ⟨∅, ∅⟩ alarm else .skipped alarm

theorem alarm_judge (v : Verifier) (g : NodeGraph) (p : Program.View) (alarm : Alarm) :
    (v.judge g p alarm).alarm = alarm := by
  unfold judge
  split
  · rfl
  · rfl

/-- An alarm is discharged if the verifier is enabled and its procedure accepts the condition. -/
theorem discharged_judge (v : Verifier) (g : NodeGraph) (p : Program.View) (alarm : Alarm) :
    (v.judge g p alarm).discharged =
      (v.settings.enabled && v.decision.isValid (v.condition g p alarm)) := by
  unfold judge
  cases v.settings.enabled with
  | true => rfl
  | false => rfl

/-- A report that is pushed verdict by verdict has the verdicts on the unresolved alarms, in the order
of the list. -/
theorem verdicts_reportWith (v : Verifier) (judge : Alarm → Verdict) (alarms : List Alarm) :
    (v.reportWith judge alarms).verdicts = (alarms.filter Alarm.isUnresolved).map judge := by
  unfold reportWith
  rw [Report.foldl_push]
  exact List.nil_append _

/-- A report judges each unresolved alarm on its own, and reads no memories for it. -/
theorem verdicts_reportOn (v : Verifier) (g : NodeGraph) (p : Program.View)
    (memories : Memories μ) (alarms : List Alarm) :
    (v.reportOn g p memories alarms).verdicts =
      (alarms.filter Alarm.isUnresolved).map (v.judge g p) := by
  unfold reportOn skipAll judge
  cases v.settings.enabled with
  | true => exact v.verdicts_reportWith _ alarms
  | false => exact v.verdicts_reportWith _ alarms

/-- The alarms that remain are those of the list that are unresolved and not discharged. -/
theorem remainingOn_eq_filter (v : Verifier) (g : NodeGraph) (p : Program.View)
    (memories : Memories μ) (alarms : List Alarm) :
    v.remainingOn g p memories alarms =
      alarms.filter fun a => a.isUnresolved && !(v.judge g p a).discharged := by
  unfold remainingOn Report.remaining
  rw [verdicts_reportOn, List.filter_map, List.map_map, List.filter_filter]
  have halarm : Verdict.alarm ∘ v.judge g p = id := funext (v.alarm_judge g p)
  rw [halarm, List.map_id]
  refine List.filter_congr fun a _ => ?_
  exact Bool.and_comm _ _

/-- A verifier that is not enabled looks at no graph, so it does not matter that none is made for
it. -/
theorem report_eq_reportOn (v : Verifier) (p : Program.View) (memories : Memories μ)
    (alarms : List Alarm) :
    v.report p memories alarms = v.reportOn (v.graph p) p memories alarms := by
  unfold report reportOn
  cases v.settings.enabled with
  | true => rfl
  | false => rfl

/-- The account of a list of alarms. What remains are the unproven alarms of the list, in its order
and as often as they stand there, that no enabled verifier looks at or whose condition is rejected.
The report has one verdict for each unproven alarm, in the same order. Each is the verdict that the
alarm gets when it is handed in alone, whatever memories come with it. The two counts of the report
add up to the number of unproven alarms, and the second is the number of alarms that remain. A
verifier that makes the graph itself reports the same as on that graph; in particular, one that works
on the def-use graph of the program leaves the same alarms as if it were handed that graph. -/
theorem report_accounts_for_alarms (v : Verifier) (g : NodeGraph) (p : Program.View)
    (memories : Memories μ) (memories' : Memories ν) (alarms : List Alarm) :
    v.remainingOn g p memories alarms =
        (alarms.filter fun a => a.status = .unproven ∧
          (v.settings.enabled = false ∨ v.decision.isValid (v.condition g p a) = false)) ∧
    List.Forall₂
        (fun a w => w.alarm = a ∧ (v.reportOn g p memories' [a]).verdicts = [w] ∧
          (v.settings.enabled = true → w = v.verdict g p memories' a))
        (alarms.filter fun a => a.status = .unproven) (v.reportOn g p memories alarms).verdicts ∧
    (v.reportOn g p memories alarms).dischargedCount +
        (v.reportOn g p memories alarms).remainingCount =
      alarms.countP (fun a => a.status = .unproven) ∧
    (v.reportOn g p memories alarms).remainingCount = (v.remainingOn g p memories alarms).length ∧
    v.report p memories alarms = v.reportOn (v.graph p) p memories alarms ∧
    ({ v with graph := Program.View.defUse } : Verifier).remaining p memories alarms =
      v.remainingOn p.defUse p memories alarms := by
  have hunproven : ∀ a : Alarm, a.isUnresolved = decide (a.status = .unproven) := fun _ => rfl
  refine ⟨?_, ?_, ?_, ?_, report_eq_reportOn v p memories alarms, ?_⟩
  · -- The two filters agree on each alarm.
    rw [remainingOn_eq_filter]
    refine List.filter_congr fun a _ => ?_
    rw [discharged_judge, hunproven]
    cases v.settings.enabled with
    | true => simp
    | false => simp
  · -- Each verdict is what `judge` says of one alarm, and so is the verdict of the alarm alone.
    rw [verdicts_reportOn, List.forall₂_map_right_iff]
    refine List.forall₂_same.mpr fun a ha => ⟨alarm_judge v g p a, ?_, ?_⟩
    · have hopen : a.isUnresolved = true := (List.mem_filter.mp ha).2
      rw [verdicts_reportOn, List.filter_cons_of_pos hopen]
      rfl
    · intro henabled
      unfold judge
      rw [if_pos henabled]
      rfl
  · rw [Report.dischargedCount_add_remainingCount, verdicts_reportOn, List.length_map,
      List.countP_eq_length_filter]
    rfl
  · exact (Report.length_remaining _).symm
  · unfold remaining remainingOn
    rw [report_eq_reportOn]
    rfl

end Verifier

end AlarmDischarge
