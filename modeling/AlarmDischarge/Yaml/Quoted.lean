import AlarmDischarge.Text.Digit
import AlarmDischarge.Yaml.Gap

/-!
# `AlarmDischarge.Yaml.Quoted`: quoted scalars

Between single quotes a quote is written twice and all else stands for itself. Between double
quotes a backslash starts an escape; before a line break it takes the break away. Line breaks are
folded in both.

Main definitions: `readEscape?`, `Quote`, `Cursor.quoted?`.
-/

set_option autoImplicit false

namespace AlarmDischarge.Yaml

/-! ### Escapes -/

/-- The character with a code point given by its digits. -/
def codePoint? (digits : Nat) (cs : List Char) : Option Char :=
  if (cs.take digits).length = digits then
    (Text.number? 16 (cs.take digits)).bind fun n =>
      if n.isValidChar then some (Char.ofNat n) else none
  else none

/-- What may follow a backslash in a double-quoted scalar: the character that it stands for, and how
many characters it takes. -/
def readEscape? : List Char → Option (Char × Nat)
  | '0' :: _ => some ('\x00', 1)
  | 'a' :: _ => some ('\x07', 1)
  | 'b' :: _ => some ('\x08', 1)
  | 't' :: _ => some ('\t', 1)
  | '\t' :: _ => some ('\t', 1)
  | 'n' :: _ => some ('\n', 1)
  | 'v' :: _ => some ('\x0b', 1)
  | 'f' :: _ => some ('\x0c', 1)
  | 'r' :: _ => some ('\r', 1)
  | 'e' :: _ => some ('\x1b', 1)
  | ' ' :: _ => some (' ', 1)
  | '"' :: _ => some ('"', 1)
  | '/' :: _ => some ('/', 1)
  | '\\' :: _ => some ('\\', 1)
  | 'N' :: _ => some ('\u0085', 1)
  | '_' :: _ => some ('\u00a0', 1)
  | 'L' :: _ => some ('\u2028', 1)
  | 'P' :: _ => some ('\u2029', 1)
  | 'x' :: rest => (codePoint? 2 rest).map (·, 3)
  | 'u' :: rest => (codePoint? 4 rest).map (·, 5)
  | 'U' :: rest => (codePoint? 8 rest).map (·, 9)
  | _ => none

/-! ### Runs without spaces -/

/-- A part of a quoted scalar without spaces: its text, the characters it is written with, and what
follows them. -/
structure Run where
  text : List Char := []
  passed : List Char := []
  rest : List Char
deriving DecidableEq

/-- A run with a character before it. -/
def Run.cons (r : Run) (c : Char) (written : List Char) : Run :=
  { text := c :: r.text, passed := written ++ r.passed, rest := r.rest }

/-- The run of a single-quoted scalar up to a space or the quote that ends it. -/
def singleRun : List Char → Run
  | '\'' :: '\'' :: rest => (singleRun rest).cons '\'' ['\'', '\'']
  | c :: rest =>
    if c == '\'' || isSpace c then { rest := c :: rest } else (singleRun rest).cons c [c]
  | [] => { rest := [] }

/-- The run of a double-quoted scalar up to a space, an escaped line break or the quote that ends
it. -/
def doubleRun? (cs : List Char) : Option Run :=
  match cs with
  | [] => some { rest := [] }
  | c :: rest =>
    if c == '"' || isSpace c then some { rest := c :: rest }
    else if c == '\\' then
      if rest.head?.any isBreak then some { rest := c :: rest }
      else
        match readEscape? rest with
        | none => none
        | some (x, n) => (doubleRun? (rest.drop n)).map (·.cons x (c :: rest.take n))
    else (doubleRun? rest).map (·.cons c [c])
termination_by cs.length

theorem singleRun_length (cs : List Char) : (singleRun cs).rest.length ≤ cs.length := by
  fun_induction singleRun cs with
  | case1 rest ih =>
    simp only [Run.cons, List.length_cons]
    omega
  | case2 => exact Nat.le_refl _
  | case3 c rest _ _ ih =>
    simp only [Run.cons, List.length_cons]
    omega
  | case4 => exact Nat.le_refl _

theorem doubleRun?_length {cs : List Char} {r : Run} (h : doubleRun? cs = some r) :
    r.rest.length ≤ cs.length := by
  fun_induction doubleRun? cs generalizing r with
  | case1 =>
    obtain rfl := Option.some.inj h
    exact Nat.le_refl _
  | case2 =>
    obtain rfl := Option.some.inj h
    exact Nat.le_refl _
  | case3 =>
    obtain rfl := Option.some.inj h
    exact Nat.le_refl _
  | case4 => simp at h
  | case5 c rest _ _ _ x n _ ih =>
    obtain ⟨q, hq, rfl⟩ := Option.map_eq_some_iff.mp h
    have := ih hq
    simp only [Run.cons, List.length_drop, List.length_cons] at this ⊢
    omega
  | case6 c rest _ _ ih =>
    obtain ⟨q, hq, rfl⟩ := Option.map_eq_some_iff.mp h
    have := ih hq
    simp only [Run.cons, List.length_cons] at this ⊢
    omega

/-! ### Whole scalars -/

/-- A quote that surrounds a scalar. -/
inductive Quote where
  | single
  | double
deriving DecidableEq

/-- The character of a quote. -/
def Quote.char : Quote → Char
  | single => '\''
  | double => '"'

/-- The run up to a space, an escaped line break or the quote that ends a scalar. -/
def Quote.run? : Quote → List Char → Option Run
  | single, cs => some (singleRun cs)
  | double, cs => doubleRun? cs

theorem Quote.run?_length {q : Quote} {cs : List Char} {r : Run} (h : q.run? cs = some r) :
    r.rest.length ≤ cs.length := by
  cases q with
  | single =>
    rw [← Option.some.inj h]
    exact singleRun_length cs
  | double => exact doubleRun?_length h

namespace Cursor

/-- The text of what separates two runs of a quoted scalar, and the place behind it. A backslash
takes the line break behind it away, and the line breaks after that count in full. -/
def quotedGap? (c : Cursor) : Option (List Char × Cursor) :=
  match c.rest with
  | '\\' :: rest =>
    match (c.pass ['\\'] rest).lineBreak? with
    | some (_, next) => (next.skipWhile isBlank).breaks? 0
    | none => none
  | _ => (c.gap? 0).map fun (gap, c') => (gap.text, c')

theorem quotedGap?_length {c c' : Cursor} {text : List Char} {x : Char} {rest : List Char}
    (hc : c.rest = x :: rest) (hx : isSpace x ∨ x = '\\') (h : c.quotedGap? = some (text, c')) :
    c'.rest.length < c.rest.length := by
  unfold quotedGap? at h
  split at h
  · rename_i cs heq
    split at h
    · rename_i y d hb
      have hlt := lineBreak?_length hb
      have hle := breaks?_length h
      have hskip := skipWhile_length d isBlank
      simp only [rest_pass] at hlt
      simp only [heq, List.length_cons]
      omega
    · simp at h
  · rename_i hne
    obtain ⟨⟨g, d⟩, hg, he⟩ := Option.map_eq_some_iff.mp h
    obtain ⟨-, rfl⟩ := Prod.mk.inj he
    have hspace : isSpace x := hx.resolve_right fun hb => hne rest (by rw [hc, hb])
    exact gap?_length_lt hspace hc hg

/-- What is left of a quoted scalar, and the place behind its last quote. No document may end in
it. -/
def quoted? (q : Quote) (c : Cursor) : Option (List Char × Cursor) :=
  if c.column = 0 ∧ isDocumentMark c.rest then none
  else
    match hr : q.run? c.rest with
    | none => none
    | some ⟨_, _, []⟩ => none
    | some ⟨text, passed, x :: rest⟩ =>
      if x == q.char then some (text, c.pass (passed ++ [x]) rest)
      else if hx : isSpace x ∨ x = '\\' then
        match hg : (c.pass passed (x :: rest)).quotedGap? with
        | none => none
        | some (gap, c') =>
          have : (x :: rest).length ≤ c.rest.length := Quote.run?_length hr
          have : c'.rest.length < (x :: rest).length := quotedGap?_length rfl hx hg
          (c'.quoted? q).map fun (more, e) => (text ++ gap ++ more, e)
      else none
termination_by c.rest.length

theorem quoted?_length {q : Quote} {c c' : Cursor} {text : List Char}
    (h : c.quoted? q = some (text, c')) : c'.rest.length ≤ c.rest.length := by
  fun_induction quoted? q c generalizing text with
  | case1 => simp at h
  | case2 => simp at h
  | case3 => simp at h
  | case4 c _ run passed x rest hr hx =>
    obtain ⟨-, rfl⟩ := Prod.mk.inj (Option.some.inj h)
    have : (x :: rest).length ≤ c.rest.length := Quote.run?_length hr
    simp only [List.length_cons] at this
    simp only [rest_pass]
    omega
  | case5 => simp at h
  | case6 c _ run passed x rest hr _ hx gap d hg hle hlt ih =>
    obtain ⟨⟨more, e⟩, hm, he⟩ := Option.map_eq_some_iff.mp h
    obtain ⟨-, rfl⟩ := Prod.mk.inj he
    have := ih hm
    omega
  | case7 => simp at h

end Cursor

end AlarmDischarge.Yaml
