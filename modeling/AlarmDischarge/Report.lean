import AlarmDischarge.Alarm

/-!
# `AlarmDischarge.Report`: verdicts on alarms

Main definitions:

* `Verdict`: what became of one alarm (`AlarmVerdict`);
* `Report`: the verdicts of a run, in the order of the alarms, under the name of the decision
  procedure (`VerificationReport`); `Report.push` adds one;
* `Report.dischargedCount`, `Report.remainingCount`: `discharged_count` and `remaining_count`;
* `Report.remaining`: the alarms that were not discharged (`remaining_alarms`, `into_remaining`).
-/

set_option autoImplicit false

namespace AlarmDischarge

/-- What became of one alarm: the condition that was judged, if one was, whether it was accepted,
and how large the slice and how long the propagation of facts were. -/
structure Verdict where
  alarm : Alarm
  condition : Option String
  discharged : Bool
  sliceSize : UInt64
  iterations : UInt64
  converged : Bool
deriving DecidableEq

/-- The verdict on an alarm that was not looked at. -/
def Verdict.skipped (alarm : Alarm) : Verdict := ⟨alarm, none, false, 0, 0, true⟩

/-- The verdicts of a run. -/
structure Report where
  decision : String := ""
  verdicts : List Verdict := []
deriving DecidableEq

namespace Report

/-- Adds a verdict at the end. -/
def push (r : Report) (v : Verdict) : Report := { r with verdicts := r.verdicts ++ [v] }

/-- How many alarms were discharged. -/
def dischargedCount (r : Report) : Nat := r.verdicts.countP (·.discharged)

/-- How many alarms were not discharged. -/
def remainingCount (r : Report) : Nat := r.verdicts.length - r.dischargedCount

/-- The alarms that were not discharged, in order. -/
def remaining (r : Report) : List Alarm :=
  (r.verdicts.filter (fun v => !v.discharged)).map Verdict.alarm

end Report

end AlarmDischarge
