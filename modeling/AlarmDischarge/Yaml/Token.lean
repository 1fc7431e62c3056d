import AlarmDischarge.Yaml.Block
import AlarmDischarge.Yaml.Plain
import AlarmDischarge.Yaml.Quoted
import AlarmDischarge.Yaml.Value

/-!
# `AlarmDischarge.Yaml.Token`: the lexical units of YAML

What comes next in a text is told from its first character and what follows that. Three tokens have
no characters of their own: indentation opens and closes the collections of block style.

Main definitions: `Token`, `Token.read?`.

Main statement: a token takes at least one character, `Token.read?_length`.
-/

set_option autoImplicit false

namespace AlarmDischarge.Yaml

/-- A lexical unit. -/
inductive Token where
  /-- the version of YAML that a document follows -/
  | version (major minor : Nat)
  /-- what a tag handle stands for -/
  | handle (name : String) (start : Tag)
  | documentStart
  | documentEnd
  /-- the start of a block sequence -/
  | seqStart
  /-- the start of a block mapping -/
  | mapStart
  /-- the end of a block sequence or mapping -/
  | blockEnd
  | openSeq
  | closeSeq
  | openMap
  | closeMap
  | comma
  | dash
  /-- the start of a key -/
  | key
  /-- the start of a value -/
  | value
  | anchor (name : String)
  | reference (name : String)
  | tag (word : TagWord)
  | scalar (style : Style) (text : String)
deriving DecidableEq

/-! ### Directives -/

/-- A number of at most nine digits, and what follows it. -/
def readNumber? (cs : List Char) : Option (Nat × List Char) :=
  if (cs.takeWhile Char.isDigit).length ≤ 9 then
    (Text.number? 10 (cs.takeWhile Char.isDigit)).map (·, cs.dropWhile Char.isDigit)
  else none

/-- A version: two numbers with a point between them. -/
def readVersion? (cs : List Char) : Option (Token × List Char) :=
  match readNumber? cs with
  | some (major, '.' :: rest) =>
    (readNumber? rest).map fun (minor, after) => (.version major minor, after)
  | _ => none

/-- A tag handle behind its first exclamation mark. One that is not closed is that mark alone. -/
def readHandle (cs : List Char) : String × List Char := (closedHandle? cs).getD ("!", cs)

/-- A tag handle and, behind blanks, the octets it stands for. -/
def readHandleMeaning? (cs : List Char) : Option (Token × List Char) :=
  match cs with
  | '!' :: cs =>
    let (name, rest) := readHandle cs
    if rest.head?.any isBlank then
      match readUri? true 0 (rest.dropWhile isBlank) with
      | some (start, after) =>
        if start ≠ [] ∧ endsWord after then some (.handle name start.cut, after) else none
      | none => none
    else none
  | _ => none

/-- A directive behind its percent sign. -/
def readDirective? (cs : List Char) : Option (Token × List Char) :=
  let rest := cs.dropWhile isWordChar
  if endsWord rest then
    match String.ofList (cs.takeWhile isWordChar) with
    | "YAML" => readVersion? (rest.dropWhile isBlank)
    | "TAG" => readHandleMeaning? (rest.dropWhile isBlank)
    | _ => none
  else none

theorem readNumber?_length {cs rest : List Char} {n : Nat} (h : readNumber? cs = some (n, rest)) :
    rest.length ≤ cs.length := by
  unfold readNumber? at h
  split at h
  · obtain ⟨m, -, he⟩ := Option.map_eq_some_iff.mp h
    obtain ⟨-, rfl⟩ := Prod.mk.inj he
    exact (List.dropWhile_suffix _).length_le
  · simp at h

theorem readVersion?_length {cs rest : List Char} {t : Token}
    (h : readVersion? cs = some (t, rest)) : rest.length ≤ cs.length := by
  unfold readVersion? at h
  split at h
  · rename_i major after hn
    obtain ⟨⟨minor, r⟩, hm, he⟩ := Option.map_eq_some_iff.mp h
    obtain ⟨-, rfl⟩ := Prod.mk.inj he
    have h₁ := readNumber?_length hn
    have h₂ := readNumber?_length hm
    simp only [List.length_cons] at h₁
    omega
  · simp at h

theorem readHandle_length (cs : List Char) : (readHandle cs).2.length ≤ cs.length := by
  unfold readHandle
  cases h : closedHandle? cs with
  | none => simp
  | some p => simpa using closedHandle?_length h

theorem readHandleMeaning?_length {cs rest : List Char} {t : Token}
    (h : readHandleMeaning? cs = some (t, rest)) : rest.length ≤ cs.length := by
  unfold readHandleMeaning? at h
  split at h
  · rename_i after
    dsimp only at h
    split at h
    · split at h
      · rename_i hu
        split at h
        · obtain ⟨-, rfl⟩ := Prod.mk.inj (Option.some.inj h)
          have h₁ := readUri?_length hu
          have h₂ : ((readHandle after).2.dropWhile isBlank).length ≤ (readHandle after).2.length :=
            (List.dropWhile_suffix _).length_le
          have h₃ := readHandle_length after
          simp only [List.length_cons]
          omega
        · simp at h
      · simp at h
    · simp at h
  · simp at h

theorem readDirective?_length {cs rest : List Char} {t : Token}
    (h : readDirective? cs = some (t, rest)) : rest.length ≤ cs.length := by
  have hword : (cs.dropWhile isWordChar).length ≤ cs.length :=
    (List.dropWhile_suffix _).length_le
  have hblank : ((cs.dropWhile isWordChar).dropWhile isBlank).length
      ≤ (cs.dropWhile isWordChar).length := (List.dropWhile_suffix _).length_le
  unfold readDirective? at h
  dsimp only at h
  split at h
  · split at h
    · have := readVersion?_length h
      omega
    · have := readHandleMeaning?_length h
      omega
    · simp at h
  · simp at h

/-! ### Marks of nodes -/

/-- The name of an anchor, and what follows it. -/
def readName? (cs : List Char) : Option (String × List Char) :=
  let rest := cs.dropWhile isWordChar
  if cs.takeWhile isWordChar ≠ [] ∧
      (endsWord rest ∨ rest.head?.any (· ∈ ['?', ':', ',', ']', '\x7d', '%', '@', '\x60'])) then
    some (String.ofList (cs.takeWhile isWordChar), rest)
  else none

/-- An anchor, a reference to one, or a tag, behind its first character. -/
def readNodeMark? (inFlow : Bool) (c : Char) (cs : List Char) : Option (Token × List Char) :=
  match c with
  | '&' => (readName? cs).map fun (name, rest) => (.anchor name, rest)
  | '*' => (readName? cs).map fun (name, rest) => (.reference name, rest)
  | '!' =>
    match tagWord? cs with
    | some (word, rest) =>
      if endsWord rest ∨ (inFlow ∧ rest.head? = some ',') then some (.tag word, rest) else none
    | none => none
  | _ => none

theorem readName?_length {cs rest : List Char} {name : String}
    (h : readName? cs = some (name, rest)) : rest.length ≤ cs.length := by
  unfold readName? at h
  dsimp only at h
  split at h
  · obtain ⟨-, rfl⟩ := Prod.mk.inj (Option.some.inj h)
    exact (List.dropWhile_suffix _).length_le
  · simp at h

theorem readNodeMark?_length {inFlow : Bool} {c : Char} {cs rest : List Char} {t : Token}
    (h : readNodeMark? inFlow c cs = some (t, rest)) : rest.length ≤ cs.length := by
  unfold readNodeMark? at h
  split at h
  · obtain ⟨⟨name, r⟩, hn, he⟩ := Option.map_eq_some_iff.mp h
    obtain ⟨-, rfl⟩ := Prod.mk.inj he
    exact readName?_length hn
  · obtain ⟨⟨name, r⟩, hn, he⟩ := Option.map_eq_some_iff.mp h
    obtain ⟨-, rfl⟩ := Prod.mk.inj he
    exact readName?_length hn
  · split at h
    · rename_i hw
      split at h
      · obtain ⟨-, rfl⟩ := Prod.mk.inj (Option.some.inj h)
        exact tagWord?_length hw
      · simp at h
    · simp at h
  · simp at h

/-! ### Scalars -/

/-- Whether a character starts a plain scalar, given what follows it. Outside of brackets a dash, a
question mark and a colon may, if they are no words of their own. -/
def startsPlain (inFlow : Bool) (c : Char) (cs : List Char) : Bool :=
  if c == '-' then !cs.head?.any isBlank
  else if c == '?' || c == ':' then !inFlow && !endsWord cs
  else
    !isSpace c && !isFlowMark c &&
      c ∉ ['#', '&', '*', '!', '|', '>', '\'', '"', '%', '@', '\x60']

/-- A scalar, whose first character is given and stands before the cursor. -/
def readScalar? (inFlow : Bool) (limit : Nat) (x : Char) (c : Cursor) : Option (Token × Cursor) :=
  if x = '\'' then (c.quoted? .single).map fun (text, e) => (.scalar .single (.ofList text), e)
  else if x = '"' then (c.quoted? .double).map fun (text, e) => (.scalar .double (.ofList text), e)
  else if x = '|' ∧ !inFlow then
    (c.block? false limit).map fun (text, e) => (.scalar .literal (.ofList text), e)
  else if x = '>' ∧ !inFlow then
    (c.block? true limit).map fun (text, e) => (.scalar .folded (.ofList text), e)
  else if startsPlain inFlow x c.rest then
    (c.plain? inFlow limit).map fun (text, e) => (.scalar .plain (.ofList (x :: text)), e)
  else none

theorem readScalar?_length {inFlow : Bool} {limit : Nat} {x : Char} {c c' : Cursor} {t : Token}
    (h : readScalar? inFlow limit x c = some (t, c')) : c'.rest.length ≤ c.rest.length := by
  unfold readScalar? at h
  repeat' split at h
  · obtain ⟨⟨text, e⟩, hq, he⟩ := Option.map_eq_some_iff.mp h
    obtain ⟨-, rfl⟩ := Prod.mk.inj he
    exact Cursor.quoted?_length hq
  · obtain ⟨⟨text, e⟩, hq, he⟩ := Option.map_eq_some_iff.mp h
    obtain ⟨-, rfl⟩ := Prod.mk.inj he
    exact Cursor.quoted?_length hq
  · obtain ⟨⟨text, e⟩, hb, he⟩ := Option.map_eq_some_iff.mp h
    obtain ⟨-, rfl⟩ := Prod.mk.inj he
    exact Cursor.block?_length hb
  · obtain ⟨⟨text, e⟩, hb, he⟩ := Option.map_eq_some_iff.mp h
    obtain ⟨-, rfl⟩ := Prod.mk.inj he
    exact Cursor.block?_length hb
  · obtain ⟨⟨text, e⟩, hp, he⟩ := Option.map_eq_some_iff.mp h
    obtain ⟨-, rfl⟩ := Prod.mk.inj he
    exact Cursor.plain?_length hp
  · simp at h

/-! ### Tokens -/

/-- A token of one character, given what follows it. Outside of brackets a dash, a question mark
and a colon have to end a word. -/
def indicator? (inFlow : Bool) (c : Char) (cs : List Char) : Option Token :=
  match c with
  | '[' => some .openSeq
  | ']' => some .closeSeq
  | '\x7b' => some .openMap
  | '\x7d' => some .closeMap
  | ',' => some .comma
  | '-' => if endsWord cs then some .dash else none
  | '?' => if inFlow || endsWord cs then some .key else none
  | ':' => if inFlow || endsWord cs then some .value else none
  | _ => none

/-- The token that starts here, and the place behind it. Directives and marks between documents
start at the start of a line. -/
def Token.read? (inFlow : Bool) (limit : Nat) (c : Cursor) : Option (Token × Cursor) :=
  match c.rest with
  | [] => none
  | x :: rest =>
    if c.column = 0 ∧ x = '%' then
      match readDirective? rest with
      | some (t, after) => (c.moveTo after).endLine?.map (t, ·)
      | none => none
    else if c.column = 0 ∧ isDocumentMark (x :: rest) then
      let mark := if x = '-' then Token.documentStart else .documentEnd
      some (mark, c.pass (x :: rest.take 2) (rest.drop 2))
    else
      match indicator? inFlow x rest with
      | some t => some (t, c.pass [x] rest)
      | none =>
        if x ∈ ['&', '*', '!'] then
          (readNodeMark? inFlow x rest).map fun (t, after) => (t, c.moveTo after)
        else readScalar? inFlow limit x (c.pass [x] rest)

/-- A token takes at least one character. -/
theorem Token.read?_length {inFlow : Bool} {limit : Nat} {c c' : Cursor} {t : Token}
    (h : Token.read? inFlow limit c = some (t, c')) : c'.rest.length < c.rest.length := by
  unfold Token.read? at h
  split at h
  · simp at h
  · rename_i x rest hc
    rw [hc, List.length_cons]
    split at h
    · split at h
      · rename_i hd
        obtain ⟨e, hl, he⟩ := Option.map_eq_some_iff.mp h
        obtain ⟨-, rfl⟩ := Prod.mk.inj he
        have h₁ := readDirective?_length hd
        have h₂ := Cursor.endLine?_length hl
        simp only [Cursor.rest_moveTo] at h₂
        omega
      · simp at h
    · split at h
      · obtain ⟨-, rfl⟩ := Prod.mk.inj (Option.some.inj h)
        simp only [Cursor.rest_pass, List.length_drop]
        omega
      · split at h
        · obtain ⟨-, rfl⟩ := Prod.mk.inj (Option.some.inj h)
          simp
        · split at h
          · obtain ⟨⟨u, after⟩, hm, he⟩ := Option.map_eq_some_iff.mp h
            obtain ⟨-, rfl⟩ := Prod.mk.inj he
            exact Nat.lt_succ_of_le (readNodeMark?_length hm)
          · exact Nat.lt_succ_of_le (readScalar?_length h)

end AlarmDischarge.Yaml
