import AlarmDischarge.Text.Digit
import AlarmDischarge.Yaml.Cursor

/-!
# `AlarmDischarge.Yaml.Tag`: names of tags

A tag names the kind of a node. It is written in full, or as a handle that stands for the start of
a name, and the rest. Names are octets: a percent sign and two digits stand for one, and octets
written this way have to come in the groups that encode a character.

Main definitions: `Tag`, `TagWord`, `readUri?`, `Cursor.tagWord?`, `TagWord.resolve?`.
-/

set_option autoImplicit false

namespace AlarmDischarge.Yaml

/-- The octets of a name. -/
abbrev Tag := List UInt8

namespace Tag

/-- The octets of a text. -/
def ofString (s : String) : Tag := s.toUTF8.toList

/-- A name as far as it counts: a zero octet ends it. -/
def cut (t : Tag) : Tag := t.takeWhile (· != 0)

/-- What follows the exclamation mark of a name that is local to a document, if it is a text. -/
def local? : Tag → Option String
  | 0x21 :: name => String.fromUTF8? ⟨name.toArray⟩
  | _ => none

end Tag

/-! ### Octets -/

/-- Whether a character may stand in a name as it is. Commas and brackets may where they cannot be
taken for the marks of a collection. -/
def isUriChar (brackets : Bool) (c : Char) : Bool :=
  isWordChar c ||
    c ∈ [';', '/', '?', ':', '@', '&', '=', '+', '$', '.', '!', '~', '*', '\'', '(', ')'] ||
    (brackets && c ∈ [',', '[', ']'])

/-- How many octets are due after an octet, given how many were due before it. The first octet of a
group says how many follow it. -/
def octetsDue? (due n : Nat) : Option Nat :=
  if due = 0 then
    if n < 0x80 then some 0
    else if 0xC0 ≤ n ∧ n < 0xE0 then some 1
    else if 0xE0 ≤ n ∧ n < 0xF0 then some 2
    else if 0xF0 ≤ n ∧ n < 0xF8 then some 3
    else none
  else if 0x80 ≤ n ∧ n < 0xC0 then some (due - 1)
  else none

/-- The octets of a name, some of which are due, and what follows them. -/
def readUri? (brackets : Bool) (due : Nat) : List Char → Option (Tag × List Char)
  | '%' :: a :: b :: rest =>
    match Text.number? 16 [a, b] with
    | none => none
    | some n =>
      match octetsDue? due n with
      | none => none
      | some due => (readUri? brackets due rest).map fun (t, after) => (UInt8.ofNat n :: t, after)
  | '%' :: _ => none
  | c :: rest =>
    if due ≠ 0 then none
    else if isUriChar brackets c then
      (readUri? brackets 0 rest).map fun (t, after) => (UInt8.ofNat c.toNat :: t, after)
    else some ([], c :: rest)
  | [] => if due = 0 then some ([], []) else none

theorem readUri?_length {brackets : Bool} {due : Nat} {cs rest : List Char} {t : Tag}
    (h : readUri? brackets due cs = some (t, rest)) : rest.length ≤ cs.length := by
  fun_induction readUri? brackets due cs generalizing t rest with
  | case1 => simp at h
  | case2 => simp at h
  | case3 _ a b cs n _ due _ ih =>
    obtain ⟨⟨u, r⟩, hr, he⟩ := Option.map_eq_some_iff.mp h
    obtain ⟨-, rfl⟩ := Prod.mk.inj he
    have := ih hr
    simp only [List.length_cons]
    omega
  | case4 => simp at h
  | case5 => simp at h
  | case6 _ c cs _ _ _ _ ih =>
    obtain ⟨⟨u, r⟩, hr, he⟩ := Option.map_eq_some_iff.mp h
    obtain ⟨-, rfl⟩ := Prod.mk.inj he
    have := ih hr
    simp only [List.length_cons]
    omega
  | case7 => simp_all
  | case8 => simp_all
  | case9 => simp at h

/-! ### Tags as written -/

/-- A tag as it is written: a handle, or none for a name in full, and the rest of the name. -/
structure TagWord where
  handle : Option String
  rest : Tag
deriving DecidableEq

/-- The word behind an exclamation mark if a second one closes it, and what follows. -/
def closedHandle? (cs : List Char) : Option (String × List Char) :=
  match cs.dropWhile isWordChar with
  | '!' :: rest => some (String.ofList ('!' :: cs.takeWhile isWordChar ++ ['!']), rest)
  | _ => none

/-- A tag behind its exclamation mark. A name in full stands between angles. An exclamation mark
alone is a name in full itself. -/
def tagWord? (cs : List Char) : Option (TagWord × List Char) :=
  match cs with
  | '<' :: rest =>
    match readUri? true 0 rest with
    | some (t, '>' :: after) => if t = [] then none else some (⟨none, t.cut⟩, after)
    | _ => none
  | cs =>
    match closedHandle? cs with
    | some (handle, rest) =>
      match readUri? false 0 rest with
      | some (t, after) => if t = [] then none else some (⟨some handle, t.cut⟩, after)
      | none => none
    | none =>
      (readUri? false 0 cs).map fun (t, after) =>
        (if t.cut = [] then ⟨none, Tag.ofString "!"⟩ else ⟨some "!", t.cut⟩, after)

theorem closedHandle?_length {cs rest : List Char} {handle : String}
    (h : closedHandle? cs = some (handle, rest)) : rest.length ≤ cs.length := by
  unfold closedHandle? at h
  split at h
  · rename_i after heq
    obtain ⟨-, rfl⟩ := Prod.mk.inj (Option.some.inj h)
    have : (cs.dropWhile isWordChar).length ≤ cs.length := (List.dropWhile_suffix _).length_le
    rw [heq, List.length_cons] at this
    omega
  · simp at h

theorem tagWord?_length {cs rest : List Char} {w : TagWord} (h : tagWord? cs = some (w, rest)) :
    rest.length ≤ cs.length := by
  unfold tagWord? at h
  split at h
  · split at h
    · rename_i hu
      have := readUri?_length hu
      split at h
      · simp at h
      · obtain ⟨-, rfl⟩ := Prod.mk.inj (Option.some.inj h)
        simp only [List.length_cons] at this ⊢
        omega
    · simp at h
  · split at h
    · rename_i hh
      have hle := closedHandle?_length hh
      split at h
      · rename_i hu
        have := readUri?_length hu
        split at h
        · simp at h
        · obtain ⟨-, rfl⟩ := Prod.mk.inj (Option.some.inj h)
          omega
      · simp at h
    · obtain ⟨⟨u, r⟩, hu, he⟩ := Option.map_eq_some_iff.mp h
      obtain ⟨-, rfl⟩ := Prod.mk.inj he
      exact readUri?_length hu

/-! ### Meaning of handles -/

/-- What handles stand for where a document does not say otherwise. -/
def defaultHandles : List (String × Tag) :=
  [("!", Tag.ofString "!"), ("!!", Tag.ofString "tag:yaml.org,2002:")]

/-- The name that a tag stands for, given the handles that a document explains. A handle that is
explained nowhere stands for nothing. -/
def TagWord.resolve? (handles : List (String × Tag)) (w : TagWord) : Option Tag :=
  match w.handle with
  | none => some w.rest
  | some handle => ((handles ++ defaultHandles).lookup handle).map (· ++ w.rest)

end AlarmDischarge.Yaml
