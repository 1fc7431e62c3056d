import AlarmDischarge.Yaml.Tag

/-!
# `AlarmDischarge.Yaml.Value`: YAML documents

A document is a tree of scalars, sequences and mappings. A node may carry an anchor and a tag, and
a node may refer to the anchor of another. A scalar remembers how it was written: a plain one may
stand for a number, a truth value or nothing, all others are texts unless a tag says otherwise.

Main definitions:

* `Yaml`, `Yaml.Style`, `Yaml.Marks`: the tree;
* `Yaml.anchored`, `Yaml.follow`: its nodes with anchors, and what a reference stands for;
* `Yaml.text?`, `Yaml.bool?`, `Yaml.nat?`, `Yaml.option?`, `Yaml.choice?`: what a scalar says.
-/

set_option autoImplicit false

namespace AlarmDischarge

namespace Yaml

/-- The ways to write a scalar. -/
inductive Style where
  | plain
  | single
  | double
  | literal
  | folded
deriving DecidableEq

/-- What may stand before a node: the number of its anchor, and its tag. -/
structure Marks where
  anchor : Option Nat := none
  tag : Option Tag := none
deriving DecidableEq

end Yaml

/-- A YAML document or a part of one. -/
inductive Yaml where
  | scalar (marks : Yaml.Marks) (style : Yaml.Style) (text : String)
  | seq (marks : Yaml.Marks) (items : List Yaml)
  | map (marks : Yaml.Marks) (entries : List (Yaml × Yaml))
  /-- the node whose anchor has a number -/
  | reference (number : Nat)

namespace Yaml

/-- What stands where nothing is written. -/
def nothing : Yaml := scalar {} .plain ""

/-- Whether nothing is written, except perhaps an anchor and a tag. -/
def isNothing : Yaml → Bool
  | scalar _ .plain "" => true
  | _ => false

/-! ### Anchors -/

mutual

/-- The nodes with an anchor, with its number, in the order in which they are written. -/
def anchored : Yaml → List (Nat × Yaml)
  | scalar marks style text => (marks.anchor.map (·, scalar marks style text)).toList
  | seq marks items => (marks.anchor.map (·, seq marks items)).toList ++ anchoredItems items
  | map marks entries => (marks.anchor.map (·, map marks entries)).toList ++ anchoredEntries entries
  | reference _ => []

/-- The nodes with an anchor among the items of a sequence. -/
def anchoredItems : List Yaml → List (Nat × Yaml)
  | [] => []
  | item :: items => anchored item ++ anchoredItems items

/-- The nodes with an anchor among the entries of a mapping. -/
def anchoredEntries : List (Yaml × Yaml) → List (Nat × Yaml)
  | [] => []
  | (key, value) :: entries => anchored key ++ anchored value ++ anchoredEntries entries

end

/-- The node that a node of a document stands for: a reference stands for the last node whose
anchor has its number. -/
def follow (root : Yaml) : Yaml → Yaml
  | reference n => ((root.anchored.filter fun p => p.1 == n).getLast?.map Prod.snd).getD nothing
  | y => y

/-! ### Scalars -/

/-- The text of a scalar, however it is written. -/
def text? : Yaml → Option String
  | scalar _ _ text => some text
  | _ => none

/-- The words for an absent value. -/
def nullWords : List String := ["~", "null", "Null", "NULL"]

/-- The text of a scalar that may stand for a value of a kind: a plain one, or a literal one whose
tag names the kind. -/
def valueText? (kind : String) : Yaml → Option String
  | scalar _ .plain text => some text
  | scalar marks .literal text =>
    if marks.tag = some (Tag.ofString ("tag:yaml.org,2002:" ++ kind)) then some text else none
  | _ => none

/-- A truth value: a word in lower case, in upper case or capitalised. -/
def bool? (y : Yaml) : Option Bool :=
  (y.valueText? "bool").bind fun s =>
    if s ∈ ["true", "True", "TRUE"] then some true
    else if s ∈ ["false", "False", "FALSE"] then some false
    else none

/-- The value of a number without its sign: decimal without a leading zero, or hexadecimal, octal or
binary behind `0x`, `0o` or `0b`. -/
def unsigned? : List Char → Option Nat
  | '0' :: 'x' :: cs => Text.number? 16 cs
  | '0' :: 'o' :: cs => Text.number? 8 cs
  | '0' :: 'b' :: cs => Text.number? 2 cs
  | ['0'] => some 0
  | '0' :: _ => none
  | cs => Text.number? 10 cs

/-- A natural number, perhaps behind a plus sign. -/
def nat? (y : Yaml) : Option Nat :=
  (y.valueText? "int").bind fun s =>
    match s.toList with
    | '+' :: cs => unsigned? cs
    | cs => unsigned? cs

/-- A number of 32 bits. -/
def uint32? (y : Yaml) : Option UInt32 :=
  y.nat?.bind fun n => if n < UInt32.size then some (UInt32.ofNat n) else none

/-- A number of 64 bits. -/
def uint64? (y : Yaml) : Option UInt64 :=
  y.nat?.bind fun n => if n < UInt64.size then some (UInt64.ofNat n) else none

/-- A value that may be absent. A plain scalar without a tag is absent if it is empty or a word for
that; one that is tagged as absent has to be such a word. -/
def option? {α : Type} (item : Yaml → Option α) : Yaml → Option (Option α)
  | scalar ⟨anchor, none⟩ .plain text =>
    if text = "" ∨ text ∈ nullWords then some none
    else (item (scalar ⟨anchor, none⟩ .plain text)).map some
  | scalar ⟨anchor, some tag⟩ .plain text =>
    if tag = Tag.ofString "tag:yaml.org,2002:null" then
      if text ∈ nullWords then some none else none
    else (item (scalar ⟨anchor, some tag⟩ .plain text)).map some
  | y => (item y).map some

/-- The name of a choice: the text of a scalar, or its tag if that is local to the document and the
scalar says no more. -/
def choice? : Yaml → Option String
  | scalar marks style text =>
    match marks.tag.bind Tag.local? with
    | some name =>
      if style = .plain ∧ (text = "" ∨ text ∈ nullWords) then some name else none
    | none => some text
  | _ => none

end Yaml

end AlarmDischarge
