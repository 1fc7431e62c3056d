/-!
# `AlarmDischarge.Json.Value`: JSON values

The exchange format of programs, alarms and reports. A number is kept apart by how it is written: an
integer is a value, anything with a fraction or an exponent is only a text, because nothing that the
library exchanges is such a number.

Main definitions: `Json`, `Json.field?`, `Json.depth`.
-/

set_option autoImplicit false

namespace AlarmDischarge

/-- A JSON value. Objects list their fields; a reader leaves no two fields with one name. -/
inductive Json where
  | null
  | bool (b : Bool)
  | int (n : Int)
  | real (literal : String)
  | str (s : String)
  | arr (items : List Json)
  | obj (fields : List (String × Json))

namespace Json

/-- The value of a field of an object. -/
def field? : Json → String → Option Json
  | obj fields, name => fields.lookup name
  | _, _ => none

/-- A field of an object is smaller than the object, whose size is one above that of its fields. -/
theorem sizeOf_lookup_lt {fields : List (String × Json)} {name : String} {j : Json}
    (h : fields.lookup name = some j) : sizeOf j < 1 + sizeOf fields := by
  induction fields with
  | nil => simp at h
  | cons first rest ih =>
    obtain ⟨key, value⟩ := first
    rw [List.lookup_cons] at h
    split at h
    · obtain rfl := Option.some.inj h
      simp
      omega
    · have := ih h
      simp at this ⊢
      omega

mutual

/-- How many arrays and objects are open at the deepest point of a value. -/
def depth : Json → Nat
  | arr items => depthItems items + 1
  | obj fields => depthFields fields + 1
  | _ => 0

/-- The greatest depth among array items. -/
def depthItems : List Json → Nat
  | [] => 0
  | j :: rest => max j.depth (depthItems rest)

/-- The greatest depth among object fields. -/
def depthFields : List (String × Json) → Nat
  | [] => 0
  | (_, j) :: rest => max j.depth (depthFields rest)

end

end Json

end AlarmDischarge
