import AlarmDischarge.Proofs.Condition
import AlarmDischarge.Proofs.Report
import AlarmDischarge.Proofs.Validity

/-!
# `AlarmDischarge.Proofs.Discharge`: what a discharged alarm says

An alarm is discharged if a decision procedure accepts its condition (`is_valid`). The condition
joins the obligation of the alarm with the facts that arrive at its node, so it says more than the
obligation. This has a good and a bad side:

* `dropped_alarm_has_valid_obligation`: a sound procedure discharges only alarms whose obligation is
  valid. No fact has to be trusted for this, so it does not matter whether the propagation of facts
  has converged, or whether the facts that it found contradict each other;
* `discharged_iff_facts_valid`: an exact procedure discharges an alarm whose facts entail the
  obligation only if the facts are valid themselves. Facts are not assumptions, and they never help:
  an alarm with a bound is not discharged, whatever is known at its node.
-/

set_option autoImplicit false

namespace AlarmDischarge.Verifier

open Std

variable {μ : Type} {v : Verifier} {g : NodeGraph} {p : Program.View} {alarm : Alarm}

/-- A sound procedure that accepts the condition of an alarm has checked the obligation, and with it
every fact that arrives. -/
theorem valid_of_isValid_condition (hsound : v.decision.Sound)
    (h : v.decision.isValid (v.condition g p alarm) = true) :
    alarm.hazard.obligation.Valid ∧
      ∀ f ∈ (v.propagation g p alarm).table.factsAt alarm.node, f.Valid :=
  (alarm.valid_condition_iff _).mp (hsound _ h)

/-- An exact procedure accepts the condition of an alarm if nothing in it is open. -/
theorem isValid_condition_iff (hexact : v.decision.Exact) :
    v.decision.isValid (v.condition g p alarm) = true ↔
      alarm.hazard.obligation.Valid ∧
        ∀ f ∈ (v.propagation g p alarm).table.factsAt alarm.node, f.Valid :=
  (hexact _).trans (alarm.valid_condition_iff _)

/-! ### Sound procedures -/

/-- A sound procedure drops no alarm that may be true. Let a verifier judge by a sound procedure, with
any settings, on any graph. An unproven alarm that stands in the list more often than among the
alarms that remain has an obligation that is true under every interpretation. The cap on visits may
have cut the propagation short. -/
theorem dropped_alarm_has_valid_obligation (v : Verifier) (hsound : v.decision.Sound)
    (g : NodeGraph) (p : Program.View) (memories : Memories μ) (alarms : List Alarm)
    (alarm : Alarm) (hopen : alarm.status = .unproven)
    (hdropped : (v.remainingOn g p memories alarms).count alarm < alarms.count alarm) :
    alarm.hazard.obligation.Valid := by
  have hunresolved : alarm.isUnresolved = true := decide_eq_true hopen
  rw [remainingOn_eq_filter] at hdropped
  -- Had the alarm not been discharged, none of its occurrences would be missing.
  have hdischarged : (v.judge g p alarm).discharged = true := by
    by_contra hkept
    rw [Bool.not_eq_true] at hkept
    rw [List.count_filter (by rw [hunresolved, hkept]; rfl)] at hdropped
    exact absurd hdropped (Nat.lt_irrefl _)
  rw [discharged_judge, Bool.and_eq_true] at hdischarged
  exact (valid_of_isValid_condition hsound hdischarged.2).1

/-- Accepts formulas that join only `true` and equations of a term with itself. -/
def acceptsReflexive : Formula → Bool
  | .true => true
  | .eq lhs rhs => lhs = rhs
  | .and f g => acceptsReflexive f && acceptsReflexive g
  | _ => false

theorem valid_of_acceptsReflexive {f : Formula} (h : acceptsReflexive f = true) : f.Valid := by
  intro ι
  fun_induction acceptsReflexive f with
  | case1 => trivial
  | case2 lhs rhs =>
    show lhs.value ι = rhs.value ι
    rw [of_decide_eq_true h]
  | case3 f g ihf ihg =>
    rw [Bool.and_eq_true] at h
    exact ⟨ihf h.1, ihg h.2⟩
  | case4 => cases h

/-- A variable is assigned to itself over and over, and divided by. -/
def selfAssignment : Program.View where
  flow := .empty
  commandAt n :=
    if n = ⟨"main", 0⟩ then some (.assign (.var (.localInt "x")) (.var (.localInt "x"))) else none

/-- The assignment bears on the division, and the division on the assignment. -/
def selfAssignmentGraph : NodeGraph :=
  .ofLists [] [(⟨"main", 0⟩, ⟨"main", 1⟩), (⟨"main", 1⟩, ⟨"main", 0⟩)]

/-- The division, for which no bound is asked. -/
def divisionAlarm : Alarm where
  node := ⟨"main", 1⟩
  hazard := .division (.int 1) (.var (.localInt "x")) {}
  status := .unproven

/-- The division is handed in twice. The propagation is cut short after two visits, with a fact at the
division, and both alarms are dropped by a sound procedure. -/
theorem obligation_divisionAlarm :
    let v : Verifier :=
      { settings := { maxIterations := 2 }, decision := .ofPredicate acceptsReflexive }
    let remaining := v.remainingOn (μ := Unit) selfAssignmentGraph selfAssignment ⟨∅, ∅⟩
      [divisionAlarm, divisionAlarm]
    (v.propagation selfAssignmentGraph selfAssignment divisionAlarm).converged = false ∧
      v.condition selfAssignmentGraph selfAssignment divisionAlarm =
        .and .true (.eq (.var "x") (.var "x")) ∧
      remaining.count divisionAlarm < [divisionAlarm, divisionAlarm].count divisionAlarm ∧
      divisionAlarm.hazard.obligation.Valid := by
  intro v remaining
  have hdropped :
      remaining.count divisionAlarm < [divisionAlarm, divisionAlarm].count divisionAlarm := by
    decide +kernel
  refine ⟨by decide +kernel, by decide +kernel, hdropped, ?_⟩
  exact dropped_alarm_has_valid_obligation v (fun _ => valid_of_acceptsReflexive) _ _ _ _ _ rfl
    hdropped

/-! ### Exact procedures -/

/-- Facts do not help to discharge an alarm. Let a verifier judge by an exact procedure. If the facts
that arrive at the node of an alarm entail its obligation, then the alarm is discharged exactly if
these facts are true under every interpretation, just as the obligation then is. And an alarm whose
obligation is a bound is not discharged, whatever facts arrive. -/
theorem discharged_iff_facts_valid (v : Verifier) (hexact : v.decision.Exact) (g : NodeGraph)
    (p : Program.View) (memories : Memories μ) (alarm : Alarm) :
    (((v.propagation g p alarm).table.factsAt alarm.node).Entails alarm.hazard.obligation →
      ((v.verdict g p memories alarm).discharged = true ↔
        ∀ f ∈ (v.propagation g p alarm).table.factsAt alarm.node, f.Valid)) ∧
    (alarm.hazard.obligation ≠ .true → (v.verdict g p memories alarm).discharged = false) := by
  have hiff : (v.verdict g p memories alarm).discharged = true ↔
      alarm.hazard.obligation.Valid ∧
        ∀ f ∈ (v.propagation g p alarm).table.factsAt alarm.node, f.Valid :=
    isValid_condition_iff hexact
  constructor
  · intro hentails
    rw [hiff]
    exact ⟨And.right, fun hfacts => ⟨hentails.valid hfacts, hfacts⟩⟩
  · intro hbound
    rw [← Bool.not_eq_true, hiff]
    intro hvalid
    exact hbound ((Hazard.valid_obligation_iff _).mp hvalid.1)

/-- In the loop over an array, the length of the array and the bound on the subscript entail that the
access is safe. An exact procedure does not discharge the alarm: neither fact is valid. -/
theorem entailed_obligation_not_discharged :
    ¬ ∀ (v : Verifier) (g : NodeGraph) (p : Program.View) (memories : Memories Unit)
        (alarm : Alarm), v.decision.Exact →
      ((v.propagation g p alarm).table.factsAt alarm.node).Entails alarm.hazard.obligation →
      (v.verdict g p memories alarm).discharged = true := by
  intro hclaim
  let v : Verifier := { decision := .exact }
  let p := arrayLoop.view
  have hfacts : ((v.propagation p.defUse p arrayLoopAlarm).table.factsAt
      arrayLoopAlarm.node).toList =
        [.eq (.arraySize (.var "a")) (.var "n"), .lt (.var "i") (.var "n")] := by
    decide +kernel
  have hentails : ((v.propagation p.defUse p arrayLoopAlarm).table.factsAt
      arrayLoopAlarm.node).Entails arrayLoopAlarm.hazard.obligation := by
    intro ι hι
    simp only [← ExtTreeSet.mem_toList, hfacts, List.forall_mem_cons] at hι
    show ι.var "i" < ι.arraySize (ι.var "a")
    have hlength : ι.arraySize (ι.var "a") = ι.var "n" := hι.1
    have hbelow : ι.var "i" < ι.var "n" := hι.2.1
    omega
  have hdischarged : v.decision.isValid (v.condition p.defUse p arrayLoopAlarm) = true :=
    hclaim v p.defUse p ⟨∅, ∅⟩ arrayLoopAlarm Decision.exact_exact hentails
  have hvalid := (valid_of_isValid_condition Decision.exact_exact.sound hdischarged).1
  -- Where all variables are zero and all arrays are empty the access is not safe.
  exact absurd (hvalid .zero) (by decide)

/-- At the division an assignment of a variable to itself arrives. That the variable equals itself is
valid, and the alarm is discharged. -/
theorem discharged_divisionAlarm :
    let v : Verifier := { decision := .exact }
    v.decision.Exact ∧
      ((v.propagation selfAssignmentGraph selfAssignment divisionAlarm).table.factsAt
        divisionAlarm.node).toList = [.eq (.var "x") (.var "x")] ∧
      (v.verdict (μ := Unit) selfAssignmentGraph selfAssignment ⟨∅, ∅⟩ divisionAlarm).discharged =
        true := by
  intro v
  have hfacts : ((v.propagation selfAssignmentGraph selfAssignment divisionAlarm).table.factsAt
      divisionAlarm.node).toList = [.eq (.var "x") (.var "x")] := by
    decide +kernel
  have hlaw := discharged_iff_facts_valid (μ := Unit) v Decision.exact_exact selfAssignmentGraph
    selfAssignment ⟨∅, ∅⟩ divisionAlarm
  refine ⟨Decision.exact_exact, hfacts, (hlaw.1 fun _ _ => trivial).mpr ?_⟩
  intro f hf
  rw [← ExtTreeSet.mem_toList, hfacts, List.mem_singleton] at hf
  rw [hf]
  exact fun _ => rfl

end AlarmDischarge.Verifier
