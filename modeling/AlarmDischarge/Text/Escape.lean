/-!
# `AlarmDischarge.Text.Escape`: escaped characters

Character and text constants are written with escapes: tab, carriage return and newline by their
letters, both quotes and the backslash behind a backslash, the other printable ASCII characters as
they stand, and everything else by its code point in lower-case hexadecimal.

Main definitions: `Text.escapeChar`, `Text.escape`.
-/

set_option autoImplicit false

namespace AlarmDischarge.Text

/-- The lower-case hexadecimal digits of a number, without padding. -/
def hex (n : Nat) : List Char := Nat.toDigits 16 n

/-- A character as it stands between the quotes of a constant. -/
def escapeChar (c : Char) : List Char :=
  match c with
  | '\t' => ['\\', 't']
  | '\r' => ['\\', 'r']
  | '\n' => ['\\', 'n']
  | '\'' => ['\\', '\'']
  | '"' => ['\\', '"']
  | '\\' => ['\\', '\\']
  | c =>
    if 0x20 ≤ c.toNat ∧ c.toNat ≤ 0x7e then [c]
    else ['\\', 'u', '\x7b'] ++ hex c.toNat ++ ['\x7d']

/-- A text as it stands between the quotes of a constant. -/
def escape (s : String) : String := String.ofList (s.toList.flatMap escapeChar)

end AlarmDischarge.Text
