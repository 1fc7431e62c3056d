import AlarmDischarge.Condition
import AlarmDischarge.DefUse.Graph
import AlarmDischarge.Report
import AlarmDischarge.Settings.Basic
import AlarmDischarge.Slice

/-!
# `AlarmDischarge.Verifier`: discharging alarms

For each unresolved alarm the verifier slices the def-use graph at the node of the alarm, moves
facts along the slice, joins the facts that arrive with the obligation of the alarm, and lets a
decision procedure judge the condition. Alarms whose condition is accepted are discharged; the
others remain.

Main definitions:

* `Verifier`, `Verifier.ofSettings`: settings and the procedure that judges conditions
  (`AlarmVerifier` and its `new`);
* `Verifier.verdict`: one alarm (`verify_alarm`);
* `Verifier.reportOn`, `Verifier.report`: a list of alarms, on a given graph or on the def-use graph
  of the program (`report_on_graph`, `verify_all_with_report`); `Verifier.skipAll`: a list of alarms
  that are not looked at (`skip_all`);
* `Verifier.remainingOn`, `Verifier.remaining`: the alarms that are left (`verify_all_with_graph`,
  `verify_all`).
-/

set_option autoImplicit false

namespace AlarmDischarge

open Std

/-- The abstract memories that the numeric analysis found at nodes. They are handed to the verifier
with its alarms; obligations do not depend on them. -/
abbrev MemoryTable (μ : Type) := ExtTreeMap Node μ

/-- The abstract memories before and after each node. -/
structure Memories (μ : Type) where
  before : MemoryTable μ
  after : MemoryTable μ

/-- Settings, the procedure that judges conditions, and how a def-use graph is made. -/
structure Verifier where
  settings : Settings := {}
  decision : Decision := .assumeValid
  graph : Program.View → NodeGraph := Program.View.defUse

namespace Verifier

/-- What keeps a verifier from working. -/
inductive Error where
  | file (fault : FileFault)
  | settings (cause : Settings.Error)
deriving DecidableEq

/-- The message for a failure. -/
def Error.message : Error → String
  | file fault => "IO error: " ++ fault.message
  | settings cause => "Configuration error: " ++ cause.message

/-- A verifier with the given settings, if they are valid. -/
def ofSettings (s : Settings) : Except Error Verifier :=
  match s.validate with
  | .ok () => .ok { settings := s, decision := s.decision.procedure }
  | .error cause => .error (.settings cause)

variable {μ : Type}

/-- The slice at the node of an alarm. -/
def sliceAt (v : Verifier) (g : NodeGraph) (alarm : Alarm) : NodeGraph :=
  g.slice v.settings.sameProcedureOnly alarm.node

/-- The facts that arrive at the node of an alarm. -/
def propagation (v : Verifier) (g : NodeGraph) (p : Program.View) (alarm : Alarm) : Propagation :=
  propagate (v.sliceAt g alarm) p.commandAt v.settings.maxIterations.toNat

/-- The condition of an alarm. -/
def condition (v : Verifier) (g : NodeGraph) (p : Program.View) (alarm : Alarm) : Formula :=
  alarm.condition ((v.propagation g p alarm).table.factsAt alarm.node)

/-- The verdict on one alarm. -/
def verdict (v : Verifier) (g : NodeGraph) (p : Program.View) (_memories : Memories μ)
    (alarm : Alarm) : Verdict :=
  let propagation := v.propagation g p alarm
  let condition := alarm.condition (propagation.table.factsAt alarm.node)
  { alarm
    condition := some condition.text
    discharged := v.decision.isValid condition
    sliceSize := UInt64.ofNat (v.sliceAt g alarm).nodes.size
    iterations := UInt64.ofNat propagation.iterations
    converged := propagation.converged }

/-- A report with a verdict on each unresolved alarm of a list, pushed one after the other. -/
def reportWith (v : Verifier) (judge : Alarm → Verdict) (alarms : List Alarm) : Report :=
  (Alarm.unresolved alarms).foldl (fun r alarm => r.push (judge alarm))
    { decision := v.decision.name }

/-- The report of a verifier that looks at none of the alarms. -/
def skipAll (v : Verifier) (alarms : List Alarm) : Report := v.reportWith .skipped alarms

/-- The verdicts on the unresolved alarms of a list, with definitions taken from a graph. A verifier
that is not enabled skips them. -/
def reportOn (v : Verifier) (g : NodeGraph) (p : Program.View) (memories : Memories μ)
    (alarms : List Alarm) : Report :=
  if v.settings.enabled then v.reportWith (v.verdict g p memories) alarms else v.skipAll alarms

/-- The verdicts on the unresolved alarms of a list. A graph is only made if it is needed. -/
def report (v : Verifier) (p : Program.View) (memories : Memories μ) (alarms : List Alarm) :
    Report :=
  if v.settings.enabled then v.reportOn (v.graph p) p memories alarms else v.skipAll alarms

/-- The unresolved alarms that are not discharged, with definitions taken from a graph. -/
def remainingOn (v : Verifier) (g : NodeGraph) (p : Program.View) (memories : Memories μ)
    (alarms : List Alarm) : List Alarm :=
  (v.reportOn g p memories alarms).remaining

/-- The unresolved alarms that are not discharged. -/
def remaining (v : Verifier) (p : Program.View) (memories : Memories μ) (alarms : List Alarm) :
    List Alarm :=
  (v.report p memories alarms).remaining

end Verifier

end AlarmDischarge
