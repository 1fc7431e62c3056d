import AlarmDischarge.Text.Digit

/-!
# `AlarmDischarge.Json.Token`: the lexical form of JSON

Main definitions:

* `Json.Token`: brackets, separators, words, numbers and texts;
* `Json.readString?`: the body of a text up to its closing quote;
* `Json.readNumber?`: a number token from the characters of a number;
* `Json.Token.scan?`: a text as a list of tokens.
-/

set_option autoImplicit false

namespace AlarmDischarge.Json

/-- A lexical unit. -/
inductive Token where
  | openObject
  | closeObject
  | openArray
  | closeArray
  | comma
  | colon
  | null
  | bool (b : Bool)
  | int (n : Int)
  | real (literal : String)
  | str (s : String)
deriving DecidableEq

/-! ### Texts -/

/-- The character that a one-letter escape stands for. -/
def shortEscape? : Char → Option Char
  | '"' => some '"'
  | '\\' => some '\\'
  | '/' => some '/'
  | 'b' => some '\x08'
  | 'f' => some '\x0c'
  | 'n' => some '\n'
  | 'r' => some '\r'
  | 't' => some '\t'
  | _ => none

/-- A code unit, which is written as four hexadecimal digits. -/
def readUnit? : List Char → Option (Nat × List Char)
  | a :: b :: c :: d :: rest => (Text.number? 16 [a, b, c, d]).map fun unit => (unit, rest)
  | _ => none

/-- A code point in the escape for code units. One beyond the first plane takes two units, and half
of such a pair is refused. -/
def readCodePoint? (cs : List Char) : Option (Char × List Char) :=
  match readUnit? cs with
  | none => none
  | some (unit, rest) =>
    if unit < 0xD800 ∨ 0xE000 ≤ unit then some (Char.ofNat unit, rest)
    else if 0xDC00 ≤ unit then none
    else
      match rest with
      | '\\' :: 'u' :: rest' =>
        match readUnit? rest' with
        | none => none
        | some (low, after) =>
          if 0xDC00 ≤ low ∧ low < 0xE000 then
            some (Char.ofNat (0x10000 + (unit - 0xD800) * 0x400 + (low - 0xDC00)), after)
          else none
      | _ => none

/-- The character that an escape stands for, after its backslash. -/
def readEscape? : List Char → Option (Char × List Char)
  | [] => none
  | 'u' :: rest => readCodePoint? rest
  | c :: rest => (shortEscape? c).map fun c' => (c', rest)

theorem readUnit?_length {cs rest : List Char} {unit : Nat}
    (h : readUnit? cs = some (unit, rest)) : rest.length < cs.length := by
  match cs, h with
  | a :: b :: c :: d :: cs, h =>
    obtain ⟨_, _, hr⟩ := Option.map_eq_some_iff.mp h
    obtain ⟨-, rfl⟩ := Prod.mk.inj hr
    simp only [List.length_cons]
    omega

theorem readCodePoint?_length {cs rest : List Char} {c : Char}
    (h : readCodePoint? cs = some (c, rest)) : rest.length < cs.length := by
  revert h
  fun_cases readCodePoint? cs <;> intro h <;> simp only [reduceCtorEq, Option.some.injEq] at h
  · obtain ⟨-, rfl⟩ := Prod.mk.inj h
    exact readUnit?_length ‹_›
  · rename_i hpair _ hunit
    obtain ⟨-, rfl⟩ := Prod.mk.inj h
    have hfirst := readUnit?_length hunit
    have hsecond := readUnit?_length hpair
    simp only [List.length_cons] at hfirst
    omega

theorem readEscape?_length {cs rest : List Char} {c : Char}
    (h : readEscape? cs = some (c, rest)) : rest.length < cs.length := by
  unfold readEscape? at h
  split at h
  · simp at h
  · exact Nat.lt_succ_of_lt (readCodePoint?_length h)
  · obtain ⟨_, _, hr⟩ := Option.map_eq_some_iff.mp h
    obtain ⟨-, rfl⟩ := Prod.mk.inj hr
    simp

/-- The body of a text, up to its closing quote, and what follows the quote. Control characters have
to be escaped. -/
def readString? (cs : List Char) : Option (List Char × List Char) :=
  match cs with
  | [] => none
  | '"' :: rest => some ([], rest)
  | '\\' :: rest =>
    match h : readEscape? rest with
    | some (c, rest') =>
      have := readEscape?_length h
      (readString? rest').map fun (body, after) => (c :: body, after)
    | none => none
  | c :: rest =>
    if c.toNat < 0x20 then none
    else (readString? rest).map fun (body, after) => (c :: body, after)
termination_by cs.length

theorem readString?_length {cs body rest : List Char} (h : readString? cs = some (body, rest)) :
    rest.length < cs.length := by
  fun_induction readString? cs generalizing body rest with
  | case1 => simp at h
  | case2 => simp at h; obtain ⟨-, rfl⟩ := h; simp
  | case3 cs c rest' he hlen ih =>
    obtain ⟨⟨b, a⟩, hs, hr⟩ := Option.map_eq_some_iff.mp h
    obtain ⟨-, rfl⟩ := Prod.mk.inj hr
    have := ih hs
    simp
    omega
  | case4 => simp at h
  | case5 => simp at h
  | case6 c cs _ _ _ ih =>
    obtain ⟨⟨b, a⟩, hs, hr⟩ := Option.map_eq_some_iff.mp h
    obtain ⟨-, rfl⟩ := Prod.mk.inj hr
    have := ih hs
    simp
    omega

/-! ### Numbers -/

/-- Whether a character can occur in a number. -/
def isNumberChar (c : Char) : Bool := c.isDigit || c ∈ ['+', '-', '.', 'e', 'E']

/-- The value of a run of decimal digits. -/
def digitsValue (ds : List Char) : Nat := ds.foldl (fun n c => 10 * n + (c.toNat - '0'.toNat)) 0

/-- The parts of a written number. -/
structure Numeral where
  negative : Bool
  whole : List Char
  fraction : Option (List Char)
  /-- whether the exponent is negative, and its digits -/
  exponent : Option (Bool × List Char)

namespace Numeral

/-- A nonempty run of digits that ends a text. -/
def digits? (cs : List Char) : Option (List Char) :=
  if cs ≠ [] ∧ cs.all Char.isDigit then some cs else none

/-- The exponent of a number, after its mark. -/
def readExponent? : List Char → Option (Bool × List Char)
  | '+' :: ds => (digits? ds).map fun ds => (false, ds)
  | '-' :: ds => (digits? ds).map fun ds => (true, ds)
  | ds => (digits? ds).map fun ds => (false, ds)

/-- What follows the whole part of a number. -/
def readTail? (cs : List Char) : Option (Option (List Char) × Option (Bool × List Char)) :=
  let isMark := fun c : Char => c == 'e' || c == 'E'
  let power? : List Char → Option (Option (Bool × List Char))
    | [] => some none
    | _ :: ds => (readExponent? ds).map some
  match cs with
  | '.' :: rest => do
    let fraction ← digits? (rest.takeWhile (!isMark ·))
    let exponent ← power? (rest.dropWhile (!isMark ·))
    return (some fraction, exponent)
  | [] => some (none, none)
  | c :: rest => if isMark c then (power? (c :: rest)).map (none, ·) else none

/-- The parts of a number: a sign, a whole part without a leading zero, a fraction, an exponent. -/
def read? (cs : List Char) : Option Numeral :=
  let (negative, cs) := match cs with
    | '-' :: rest => (true, rest)
    | cs => (false, cs)
  let whole := cs.takeWhile Char.isDigit
  if whole = [] ∨ (whole.head? = some '0' ∧ whole.length ≠ 1) then none
  else (readTail? (cs.dropWhile Char.isDigit)).map fun (fraction, exponent) =>
    { negative, whole, fraction, exponent }

/-- The least magnitude that no double-precision number is near enough to. -/
def overflow : Nat := Nat.pow 2 1024 - Nat.pow 2 970

/-- Whether the magnitude of a number is below `overflow`. A number far below or far above it is
told by its digit count, so that no huge power is formed. -/
def inRange (n : Numeral) : Bool :=
  let fraction := n.fraction.getD []
  let digits := (n.whole ++ fraction).dropWhile (· == '0')
  let power : Int := match n.exponent with
    | none => 0
    | some (negative, ds) => if negative then - (digitsValue ds : Int) else digitsValue ds
  let scale := power - fraction.length
  let magnitude := digits.length + scale
  -- Only with 309 digits before the point do the digits themselves decide.
  if digits = [] ∨ magnitude < 309 then true
  else if 309 < magnitude then false
  else if 0 ≤ scale then digitsValue digits * Nat.pow 10 scale.toNat < overflow
  else digitsValue digits < overflow * Nat.pow 10 (-scale).toNat

/-- The token of a number: an integer if it is written without fraction, exponent and minus zero. -/
def token (n : Numeral) (literal : List Char) : Token :=
  let value := digitsValue n.whole
  if n.fraction.isSome || n.exponent.isSome || (n.negative && value == 0) then
    .real (String.ofList literal)
  else .int (if n.negative then - (value : Int) else value)

end Numeral

/-- The token of a run of number characters. -/
def readNumber? (literal : List Char) : Option Token :=
  match Numeral.read? literal with
  | some n => if n.inRange then some (n.token literal) else none
  | none => none

/-! ### Scanning -/

/-- Whether a character separates tokens. -/
def isBlank (c : Char) : Bool := c == ' ' || c == '\t' || c == '\n' || c == '\r'

/-- A text as a list of tokens. -/
def Token.scan? (cs : List Char) : Option (List Token) :=
  match cs with
  | [] => some []
  | '\x7b' :: rest => (scan? rest).map (.openObject :: ·)
  | '\x7d' :: rest => (scan? rest).map (.closeObject :: ·)
  | '[' :: rest => (scan? rest).map (.openArray :: ·)
  | ']' :: rest => (scan? rest).map (.closeArray :: ·)
  | ',' :: rest => (scan? rest).map (.comma :: ·)
  | ':' :: rest => (scan? rest).map (.colon :: ·)
  | 'n' :: 'u' :: 'l' :: 'l' :: rest => (scan? rest).map (.null :: ·)
  | 't' :: 'r' :: 'u' :: 'e' :: rest => (scan? rest).map (.bool true :: ·)
  | 'f' :: 'a' :: 'l' :: 's' :: 'e' :: rest => (scan? rest).map (.bool false :: ·)
  | '"' :: rest =>
    match h : readString? rest with
    | some (body, after) =>
      have := readString?_length h
      (scan? after).map (.str (String.ofList body) :: ·)
    | none => none
  | c :: rest =>
    if isBlank c then scan? rest
    else if isNumberChar c then
      have : (rest.dropWhile isNumberChar).length ≤ rest.length :=
        (List.dropWhile_suffix _).length_le
      match readNumber? (c :: rest.takeWhile isNumberChar), scan? (rest.dropWhile isNumberChar) with
      | some t, some ts => some (t :: ts)
      | _, _ => none
    else none
termination_by cs.length

end AlarmDischarge.Json
