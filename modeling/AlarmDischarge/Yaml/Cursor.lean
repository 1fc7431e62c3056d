/-!
# `AlarmDischarge.Yaml.Cursor`: a place in a YAML text

Indentation and the length of keys count in YAML, so a reader has to know where in its line it
stands. A cursor holds what is left of the text together with that place. Readers that stay on a
line work on the characters alone and move the cursor when they are done; only line breaks start a
new line.

Main definitions:

* `isBlank`, `isBreak`, `endsWord`: the characters that separate;
* `Cursor`, `Cursor.pass`, `Cursor.skipWhile`: moving along a line;
* `Cursor.lineBreak?`: moving to the next line;
* `Cursor.skipSpace`: moving to what is written next.

Main statements: no move lengthens the rest of the text, and a line break shortens it.
-/

set_option autoImplicit false

namespace AlarmDischarge.Yaml

/-! ### Characters -/

/-- Whether a character may stand in a document at all. -/
def isPrintable (c : Char) : Bool :=
  let n := c.toNat
  n == 0x09 || n == 0x0A || n == 0x0D || (0x20 ≤ n && n ≤ 0x7E) || n == 0x85 ||
    (0xA0 ≤ n && n ≤ 0xFFFD) || 0x10000 ≤ n

/-- Whether a character separates words of a line. -/
def isBlank (c : Char) : Bool := c == ' ' || c == '\t'

/-- Whether a character ends a line. -/
def isBreak (c : Char) : Bool := c ∈ ['\n', '\r', '\u0085', '\u2028', '\u2029']

/-- Whether a character separates words. -/
def isSpace (c : Char) : Bool := isBlank c || isBreak c

/-- Whether a character may stand in the name of an anchor, a tag handle or a directive. -/
def isWordChar (c : Char) : Bool := c.isAlphanum || c == '_' || c == '-'

/-- Whether a character is a bracket or a comma of flow style. -/
def isFlowMark (c : Char) : Bool := c ∈ [',', '[', ']', '\x7b', '\x7d']

/-- Whether a word ends here: at a space, or with the text. -/
def endsWord : List Char → Bool
  | [] => true
  | c :: _ => isSpace c

/-- Whether a mark between documents stands here: three dashes, or three dots, as a word. -/
def isDocumentMark : List Char → Bool
  | '-' :: '-' :: '-' :: rest => endsWord rest
  | '.' :: '.' :: '.' :: rest => endsWord rest
  | _ => false

/-! ### Cursors -/

/-- A place in a text: what is left, and where in its line it starts. -/
structure Cursor where
  rest : List Char
  line : Nat := 0
  /-- characters before it in its line -/
  column : Nat := 0
  /-- bytes before it in its line -/
  width : Nat := 0
  /-- whether only blanks stand before it in its line -/
  fresh : Bool := true
deriving DecidableEq

namespace Cursor

/-- The place behind some characters of the line, given those and what is left. -/
def pass (c : Cursor) (passed rest : List Char) : Cursor :=
  { rest
    line := c.line
    column := c.column + passed.length
    width := passed.foldl (fun n x => n + x.utf8Size) c.width
    fresh := c.fresh && passed.all isBlank }

/-- The place where a later part of the line starts. -/
def moveTo (c : Cursor) (rest : List Char) : Cursor :=
  c.pass (c.rest.take (c.rest.length - rest.length)) rest

/-- The place behind a run of characters of the line. -/
def skipWhile (c : Cursor) (p : Char → Bool) : Cursor :=
  c.pass (c.rest.takeWhile p) (c.rest.dropWhile p)

/-- Whether a character comes next. -/
def isAt (c : Cursor) (x : Char) : Bool := c.rest.head? == some x

/-- The start of the next line. -/
def newLine (c : Cursor) (rest : List Char) : Cursor := { rest, line := c.line + 1 }

/-- The line break that comes next, as it counts in a text, and the place behind it. The breaks of
ordinary texts count as newlines, the separators of lines and paragraphs as themselves. -/
def lineBreak? (c : Cursor) : Option (Char × Cursor) :=
  match c.rest with
  | '\r' :: '\n' :: rest => some ('\n', c.newLine rest)
  | x :: rest =>
    if isBreak x then
      some (if x == '\u2028' || x == '\u2029' then x else '\n', c.newLine rest)
    else none
  | [] => none

@[simp]
theorem rest_pass (c : Cursor) (passed rest : List Char) : (c.pass passed rest).rest = rest := rfl

@[simp]
theorem rest_moveTo (c : Cursor) (rest : List Char) : (c.moveTo rest).rest = rest := rfl

theorem skipWhile_length (c : Cursor) (p : Char → Bool) :
    (c.skipWhile p).rest.length ≤ c.rest.length :=
  (List.dropWhile_suffix p).length_le

theorem lineBreak?_length {c c' : Cursor} {x : Char} (h : c.lineBreak? = some (x, c')) :
    c'.rest.length < c.rest.length := by
  unfold lineBreak? at h
  split at h
  · rename_i heq
    obtain ⟨-, rfl⟩ := Prod.mk.inj (Option.some.inj h)
    simp only [heq, newLine, List.length_cons]
    omega
  · rename_i heq
    split at h
    · obtain ⟨-, rfl⟩ := Prod.mk.inj (Option.some.inj h)
      simp only [heq, newLine, List.length_cons]
      omega
    · simp at h
  · simp at h

/-- Where a line ends, its break can be read. -/
theorem lineBreak?_ne_none {c : Cursor} {x : Char} {rest : List Char} (hc : c.rest = x :: rest)
    (hx : isBreak x) : c.lineBreak? ≠ none := by
  unfold lineBreak?
  split
  · simp
  · rename_i y ys _ heq
    obtain ⟨rfl, rfl⟩ := List.cons.inj (hc.symm.trans heq)
    simp [hx]
  · rename_i heq
    simp [hc] at heq

/-! ### Space between words -/

/-- Moves over a byte order mark that starts a line. -/
def skipOrderMark (c : Cursor) : Cursor :=
  match c.rest with
  | '\ufeff' :: rest => if c.column = 0 then c.pass ['\ufeff'] rest else c
  | _ => c

theorem skipOrderMark_length (c : Cursor) : c.skipOrderMark.rest.length ≤ c.rest.length := by
  unfold skipOrderMark
  split
  · rename_i rest h
    split
    · simp [h]
    · exact Nat.le_refl _
  · exact Nat.le_refl _

/-- Moves over the comment that starts here, if one does. -/
def skipComment (c : Cursor) : Cursor := if c.isAt '#' then c.skipWhile (!isBreak ·) else c

theorem skipComment_length (c : Cursor) : c.skipComment.rest.length ≤ c.rest.length := by
  unfold skipComment
  split
  · exact skipWhile_length c _
  · exact Nat.le_refl _

/-- Moves over the blanks and the comment at a place in a line. Tabs count as blanks only where
they cannot be taken for indentation. -/
def skipMargin (c : Cursor) (tabs : Bool) : Cursor :=
  (c.skipOrderMark.skipWhile fun x => x == ' ' || (tabs && x == '\t')).skipComment

theorem skipMargin_length (c : Cursor) (tabs : Bool) :
    (c.skipMargin tabs).rest.length ≤ c.rest.length :=
  Nat.le_trans (skipComment_length _)
    (Nat.le_trans (skipWhile_length _ _) (skipOrderMark_length c))

/-- Moves to what is written next, and tells whether a key may stand there. A new line of block
style may always start with a key, and a tab may then not indent it. -/
def skipSpace (inFlow keyAllowed : Bool) (c : Cursor) : Bool × Cursor :=
  match h : (c.skipMargin (inFlow || !keyAllowed)).lineBreak? with
  | some (_, c') =>
    have := lineBreak?_length h
    have := skipMargin_length c (inFlow || !keyAllowed)
    skipSpace inFlow (keyAllowed || !inFlow) c'
  | none => (keyAllowed, c.skipMargin (inFlow || !keyAllowed))
termination_by c.rest.length

theorem skipSpace_length (inFlow keyAllowed : Bool) (c : Cursor) :
    (c.skipSpace inFlow keyAllowed).2.rest.length ≤ c.rest.length := by
  fun_induction skipSpace inFlow keyAllowed c with
  | case1 keyAllowed c x c' h hb hm ih => omega
  | case2 keyAllowed c h => exact skipMargin_length c _

/-- Moves to the next line, where nothing but blanks and a comment is left of this one. -/
def endLine? (c : Cursor) : Option Cursor :=
  let c := (c.skipWhile isBlank).skipComment
  match c.lineBreak? with
  | some (_, next) => some next
  | none => if c.rest = [] then some c else none

theorem endLine?_length {c c' : Cursor} (h : c.endLine? = some c') :
    c'.rest.length ≤ c.rest.length := by
  have hskip : (c.skipWhile isBlank).skipComment.rest.length ≤ c.rest.length :=
    Nat.le_trans (skipComment_length _) (skipWhile_length c _)
  unfold endLine? at h
  dsimp only at h
  split at h
  · rename_i hb
    have := lineBreak?_length hb
    rw [← Option.some.inj h]
    omega
  · split at h
    · rw [← Option.some.inj h]
      exact hskip
    · simp at h

end Cursor

end AlarmDischarge.Yaml
