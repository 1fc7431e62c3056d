/-!
# `AlarmDischarge.Journal`: what a run reports about itself

The analyses are plain functions. Beside each stands a function that lists the entries a run of it
leaves in the journal, so that reading the journal never changes a result.

Main definitions: `Journal.Level` (the levels `trace`, `debug`, `info` and `warn`), `Journal.Entry`,
`Journal.upTo`.
-/

set_option autoImplicit false

namespace AlarmDischarge

/-- How severe an entry is, the most severe first. -/
inductive Journal.Level where
  | error
  | warn
  | info
  | debug
  | trace
deriving DecidableEq

namespace Journal.Level

/-- The written name of a level. -/
def text : Level → String
  | error => "ERROR"
  | warn => "WARN"
  | info => "INFO"
  | debug => "DEBUG"
  | trace => "TRACE"

/-- How much a level lets through: the more, the less severe. -/
def verbosity : Level → Nat
  | error => 0
  | warn => 1
  | info => 2
  | debug => 3
  | trace => 4

/-- The level with a written name, in any case of letters. -/
def ofText? (s : String) : Option Level :=
  [error, warn, info, debug, trace].find? (fun l => l.text == s.map Char.toUpper)

end Journal.Level

/-- One entry of a journal. -/
structure Journal.Entry where
  level : Journal.Level
  message : String
deriving DecidableEq

/-- A list of entries, oldest first. -/
abbrev Journal := List Journal.Entry

namespace Journal

/-- An entry in written form. -/
def Entry.text (e : Entry) : String := e.level.text ++ " " ++ e.message

/-- The entries at least as severe as a level. -/
def upTo (level : Level) (j : Journal) : Journal :=
  j.filter (fun e => e.level.verbosity ≤ level.verbosity)

/-- A journal of one entry. -/
def single (level : Level) (message : String) : Journal := [⟨level, message⟩]

end Journal

end AlarmDischarge
