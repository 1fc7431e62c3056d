import AlarmDischarge.Verifier

/-!
# `AlarmDischarge.Verifier.Journal`: the entries that a verifier leaves

Main definitions: `Verifier.verdictJournal`, `Verifier.reportOnJournal`, `Verifier.reportJournal`,
the entries of `verify_alarm`, `report_on_graph` and `verify_all_with_report`.
-/

set_option autoImplicit false

namespace AlarmDischarge.Verifier

variable {μ : Type}

/-- The entries of verifying one alarm. -/
def verdictJournal (v : Verifier) (g : NodeGraph) (p : Program.View) (alarm : Alarm) : Journal :=
  let sliced := v.sliceAt g alarm
  let converged := (v.propagation g p alarm).converged
  .single .info ("** verifying " ++ alarm.text) ++
    g.sliceJournal alarm.node sliced ++
    Propagation.journal sliced p.commandAt v.settings.maxIterations.toNat ++
    (if converged then []
      else Journal.single .warn ("partial fact table for " ++ alarm.node.text)) ++
    alarm.hazard.journal ++
    (if v.settings.logCondition then Journal.single .info (v.condition g p alarm).text else [])

/-- The entries of verifying a list of alarms on a graph. -/
def reportOnJournal (v : Verifier) (g : NodeGraph) (p : Program.View) (memories : Memories μ)
    (alarms : List Alarm) : Journal :=
  if v.settings.enabled then
    let unresolved := Alarm.unresolved alarms
    let report := v.reportOn g p memories alarms
    .single .debug ("verifying " ++ unresolved.length.repr ++ " of " ++ alarms.length.repr ++
        " alarms with " ++ v.decision.name) ++
      unresolved.flatMap (v.verdictJournal g p) ++
      .single .info (report.dischargedCount.repr ++ " alarms discharged, " ++
        report.remainingCount.repr ++ " remaining")
  else .single .debug "alarm verification disabled"

/-- The entries of verifying a list of alarms, where making the graph has left entries as well. -/
def reportJournal (v : Verifier) (graphJournal : NodeGraph → Journal) (p : Program.View)
    (memories : Memories μ) (alarms : List Alarm) : Journal :=
  if v.settings.enabled then
    graphJournal (v.graph p) ++ v.reportOnJournal (v.graph p) p memories alarms
  else v.reportOnJournal ∅ p memories alarms

end AlarmDischarge.Verifier
