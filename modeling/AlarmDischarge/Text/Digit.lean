/-!
# `AlarmDischarge.Text.Digit`: numbers from digits

Main definitions: `Text.digit?`, `Text.number?`.
-/

set_option autoImplicit false

namespace AlarmDischarge.Text

/-- The value of a digit of any base up to sixteen; letters count in either case. -/
def digit? (c : Char) : Option Nat :=
  if '0' ≤ c ∧ c ≤ '9' then some (c.toNat - '0'.toNat)
  else if 'a' ≤ c ∧ c ≤ 'f' then some (c.toNat - 'a'.toNat + 10)
  else if 'A' ≤ c ∧ c ≤ 'F' then some (c.toNat - 'A'.toNat + 10)
  else none

/-- Adds a digit at the end of a number in a base. -/
def pushDigit? (base n : Nat) (c : Char) : Option Nat :=
  (digit? c).bind fun d => if d < base then some (base * n + d) else none

/-- The value of a nonempty run of digits in a base. -/
def number? (base : Nat) (cs : List Char) : Option Nat :=
  if cs = [] then none else cs.foldlM (pushDigit? base) 0

end AlarmDischarge.Text
