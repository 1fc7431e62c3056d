import AlarmDischarge.Alarm
import AlarmDischarge.Fact.Set
import AlarmDischarge.Journal
import AlarmDischarge.Logic.Conversion

/-!
# `AlarmDischarge.Condition`: what has to hold for an alarm to be false

The obligation of an array access is that the subscript is below the length of the array; a pointer
plus an integer is such an access. Only the upper bound is asked for. The condition of an alarm
joins its obligation with the facts known at its node.

Main definitions: `Hazard.bound?` and `Hazard.obligation` (`obligation`), `Expr.stripCasts`
(`strip_casts`), `Alarm.condition` (`build_vc`).
-/

set_option autoImplicit false

namespace AlarmDischarge

/-- An expression without the casts around it. -/
def Expr.stripCasts : Expr → Expr
  | .cast _ e => e.stripCasts
  | e => e

namespace Hazard

/-- The bound an operation has to respect: none for an operation without one, else the bound or the
part of it that has no term. Of an array and its subscript the array is converted first. -/
def bound? : Hazard → Option (Except NotConvertible Formula)
  | element array subscript _ => some do
    let a ← array.toTerm
    let i ← subscript.toTerm
    return .lt i (.arraySize a)
  | deref address _ =>
    match address.stripCasts with
    | .binary .addPtr base subscript
    | .binary .indexPtr base subscript
    | .binary .add base subscript => some do
      let b ← base.toTerm
      let i ← subscript.toTerm
      return .lt i (.arraySize b)
    | _ => none
  | division _ _ _ => none
  | libraryCall _ _ _ => none

/-- What has to hold for an operation to be safe, as far as terms can say it. -/
def obligation (h : Hazard) : Formula :=
  match h.bound? with
  | some (.ok f) => f
  | some (.error _) => .true
  | none => .true

/-- A bound that has no term leaves a note. -/
def journal (h : Hazard) : Journal :=
  match h.bound? with
  | some (.error cause) =>
    .single .trace ("obligation for " ++ h.text ++ " is trivial: " ++ cause.message)
  | some (.ok _) => []
  | none => []

end Hazard

/-- The condition of an alarm under facts: its obligation, then the facts in their order. -/
def Alarm.condition (a : Alarm) (facts : FactSet) : Formula :=
  a.hazard.obligation.conjoin facts.toList

end AlarmDischarge
