import AlarmDischarge.Logic.Formula

/-!
# `AlarmDischarge.Decision`: judges of conditions

A decision procedure says of a condition whether it is valid. Two are built in, one for each
extreme; any other predicate can take their place.

Main definitions: `Decision` (`DecisionProcedure`), `Decision.assumeValid` and `Decision.rejectAll`
(`AssumeValid`, `RejectAll`), `Decision.ofPredicate`, and `Decision.Kind` (`DecisionKind`), the names
of the two.
-/

set_option autoImplicit false

namespace AlarmDischarge

/-- A decision procedure: its name, and the conditions it accepts. -/
structure Decision where
  name : String
  isValid : Formula → Bool

namespace Decision

/-- Accepts every condition. -/
def assumeValid : Decision := ⟨"assume_valid", fun _ => true⟩

/-- Accepts no condition. -/
def rejectAll : Decision := ⟨"reject_all", fun _ => false⟩

/-- Accepts the conditions with a property. -/
def ofPredicate (accepts : Formula → Bool) : Decision := ⟨"custom", accepts⟩

end Decision

/-- The built-in decision procedures. -/
inductive Decision.Kind where
  | assumeValid
  | rejectAll
deriving DecidableEq

namespace Decision.Kind

/-- The written name of a built-in procedure. -/
def text : Kind → String
  | assumeValid => "assume_valid"
  | rejectAll => "reject_all"

/-- The built-in procedure with a written name. -/
def ofText? (s : String) : Option Kind := [assumeValid, rejectAll].find? (fun k => k.text == s)

/-- The procedure itself. -/
def procedure : Kind → Decision
  | assumeValid => Decision.assumeValid
  | rejectAll => Decision.rejectAll

end Decision.Kind

end AlarmDischarge
