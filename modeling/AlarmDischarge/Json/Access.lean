import AlarmDischarge.Json.Value

/-!
# `AlarmDischarge.Json.Access`: typed access to JSON values

Values of the library are read from JSON by their types. A reader is a function to `Option`: a value
of another form, or a number out of range, is refused. A record is written as an object, and is read
from an object or from the array of its fields in declaration order.

Main definitions: `Json.int64?`, `Json.uint64?`, `Json.uint32?`, `Json.char?`, `Json.list?`,
`Json.option?`, `Json.record?`, `Json.unit?`, `Json.tagged`.
-/

set_option autoImplicit false

namespace AlarmDischarge.Json

/-! ### Scalars -/

/-- A text. -/
def text? : Json → Option String
  | str s => some s
  | _ => none

/-- A truth value. -/
def bool? : Json → Option Bool
  | bool b => some b
  | _ => none

/-- A signed 64-bit integer. -/
def int64? : Json → Option Int64
  | int n =>
    if Int64.minValue.toInt ≤ n ∧ n ≤ Int64.maxValue.toInt then some (Int64.ofInt n) else none
  | _ => none

/-- An unsigned 64-bit integer. -/
def uint64? : Json → Option UInt64
  | int n => if 0 ≤ n ∧ n < UInt64.size then some (UInt64.ofNat n.toNat) else none
  | _ => none

/-- An unsigned 32-bit integer. -/
def uint32? : Json → Option UInt32
  | int n => if 0 ≤ n ∧ n < UInt32.size then some (UInt32.ofNat n.toNat) else none
  | _ => none

/-- A character, which is written as a text of length one. -/
def char? : Json → Option Char
  | str s =>
    match s.toList with
    | [c] => some c
    | _ => none
  | _ => none

/-- A signed 64-bit integer as JSON. -/
def ofInt64 (n : Int64) : Json := int n.toInt

/-- An unsigned 64-bit integer as JSON. -/
def ofUInt64 (n : UInt64) : Json := int n.toNat

/-- An unsigned 32-bit integer as JSON. -/
def ofUInt32 (n : UInt32) : Json := int n.toNat

/-- A character as JSON. -/
def ofChar (c : Char) : Json := str (String.singleton c)

/-! ### Containers -/

/-- A list of values, each read alike. -/
def list? {α : Type} (item : Json → Option α) : Json → Option (List α)
  | arr items => items.mapM item
  | _ => none

/-- A value that may be absent, which is written as `null`. -/
def option? {α : Type} (item : Json → Option α) : Json → Option (Option α)
  | null => some none
  | j => (item j).map some

/-- A list of values as JSON. -/
def ofList {α : Type} (item : α → Json) (xs : List α) : Json := arr (xs.map item)

/-- A value that may be absent as JSON. -/
def ofOption {α : Type} (item : α → Json) : Option α → Json
  | none => null
  | some a => item a

/-- The fields of a record, by name from an object or by position from an array. A field that is not
there is `none`; an array has no items beyond the fields. -/
def record? (names : List String) : Json → Option (List (Option Json))
  | obj fields => some (names.map fun name => fields.lookup name)
  | arr items =>
    if items.length ≤ names.length then
      some (items.map some ++ List.replicate (names.length - items.length) none)
    else none
  | _ => none

/-- A field that has to be there. -/
def required? {α : Type} (item : Json → Option α) (field : Option Json) : Option α :=
  field.bind item

/-- A field that stands for a default when it is not there. -/
def defaulted? {α : Type} (default : α) (item : Json → Option α) : Option Json → Option α
  | none => some default
  | some j => item j

/-- The name of an alternative without content: the name alone, or an object with that one field and
`null` in it. -/
def unit? : Json → Option String
  | str name => some name
  | obj [(name, null)] => some name
  | _ => none

/-- An alternative with content: an object with one field, named for the alternative. -/
def tagged (name : String) (content : Json) : Json := obj [(name, content)]

end AlarmDischarge.Json
