import AlarmDischarge.Json.Token
import AlarmDischarge.Json.Value

/-!
# `AlarmDischarge.Json.Reader`: JSON values from text

The reader walks the tokens once and keeps the containers that are still open on a stack, so values
of any depth are read. Of two fields of one object with the same name the later one counts.

Main definition: `Json.parse?`.
-/

set_option autoImplicit false

namespace AlarmDischarge.Json

/-- A container that is still open: its items so far, latest first, or its fields so far and the
name whose value comes next. -/
inductive Frame where
  | items (done : List Json)
  | fields (done : List (String × Json)) (name : String)

/-- Adds a field; an earlier field of the same name is forgotten. -/
def putField (fields : List (String × Json)) (name : String) (value : Json) :
    List (String × Json) :=
  (name, value) :: fields.filter (fun f => f.1 != name)

mutual

/-- Reads a value where one is due. -/
def readValue (stack : List Frame) : List Token → Option Json
  | .null :: ts => resume .null stack ts
  | .bool b :: ts => resume (.bool b) stack ts
  | .int n :: ts => resume (.int n) stack ts
  | .real literal :: ts => resume (.real literal) stack ts
  | .str s :: ts => resume (.str s) stack ts
  | .openArray :: .closeArray :: ts => resume (.arr []) stack ts
  | .openArray :: ts => readValue (.items [] :: stack) ts
  | .openObject :: .closeObject :: ts => resume (.obj []) stack ts
  | .openObject :: .str name :: .colon :: ts => readValue (.fields [] name :: stack) ts
  | _ => none

/-- Goes on after a value that has been read. -/
def resume (value : Json) : List Frame → List Token → Option Json
  -- Only where no container is open may the text end.
  | [], [] => some value
  | .items done :: stack, .comma :: ts => readValue (.items (value :: done) :: stack) ts
  | .items done :: stack, .closeArray :: ts => resume (.arr (value :: done).reverse) stack ts
  | .fields done name :: stack, .comma :: .str next :: .colon :: ts =>
    readValue (.fields (putField done name value) next :: stack) ts
  | .fields done name :: stack, .closeObject :: ts =>
    resume (.obj (putField done name value).reverse) stack ts
  | _, _ => none

end

/-- The value written in a text. -/
def parse? (s : String) : Option Json := (Token.scan? s.toList).bind (readValue [])

end AlarmDischarge.Json
