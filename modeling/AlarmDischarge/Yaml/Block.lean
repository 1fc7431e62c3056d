import AlarmDischarge.Text.Digit
import AlarmDischarge.Yaml.Cursor

/-!
# `AlarmDischarge.Yaml.Block`: block scalars

A block scalar is written on lines of its own, below a header. A literal one keeps its line breaks,
a folded one joins lines that start without a blank. The header may say how far the lines are
indented, which is otherwise read off the first of them, and what becomes of the line breaks at the
end.

Main definitions: `Chomp`, `BlockHeader`, `Cursor.emptyLines?`, `Cursor.blockLines?`,
`Cursor.block?`.
-/

set_option autoImplicit false

namespace AlarmDischarge.Yaml

/-! ### Headers -/

/-- What becomes of the line breaks at the end of a block scalar. -/
inductive Chomp where
  /-- none stays -/
  | strip
  /-- that of the last line stays -/
  | clip
  /-- all stay -/
  | keep
deriving DecidableEq

/-- The line breaks at the end of a block scalar: that of its last line, and those of empty lines
below it. -/
def Chomp.text (lead breaks : List Char) : Chomp → List Char
  | strip => []
  | clip => lead
  | keep => lead ++ breaks

/-- What the header of a block scalar says. -/
structure BlockHeader where
  chomp : Chomp := .clip
  /-- how much further in the lines stand than what holds the scalar -/
  indent : Option Nat := none
deriving DecidableEq

/-- A mark for the line breaks at the end, if one is written. -/
def chomp? : List Char → Option (Chomp × List Char)
  | '+' :: rest => some (.keep, rest)
  | '-' :: rest => some (.strip, rest)
  | _ => none

/-- The indentation that a header names, if it names one; it cannot be zero. -/
def headerIndent? (cs : List Char) : Option (Option Nat × List Char) :=
  match cs with
  | [] => some (none, [])
  | c :: rest =>
    match Text.number? 10 [c] with
    | none => some (none, c :: rest)
    | some 0 => none
    | some n => some (some n, rest)

/-- A header: its two parts may stand in either order. -/
def blockHeader? (cs : List Char) : Option (BlockHeader × List Char) :=
  match chomp? cs with
  | some (chomp, rest) => (headerIndent? rest).map fun (indent, after) => (⟨chomp, indent⟩, after)
  | none =>
    (headerIndent? cs).map fun (indent, rest) =>
      match chomp? rest with
      | some (chomp, after) => (⟨chomp, indent⟩, after)
      | none => (⟨.clip, indent⟩, rest)

theorem chomp?_length {cs rest : List Char} {chomp : Chomp} (h : chomp? cs = some (chomp, rest)) :
    rest.length ≤ cs.length := by
  unfold chomp? at h
  split at h
  all_goals simp at h
  all_goals
    obtain ⟨-, rfl⟩ := h
    simp

theorem headerIndent?_length {cs rest : List Char} {indent : Option Nat}
    (h : headerIndent? cs = some (indent, rest)) : rest.length ≤ cs.length := by
  unfold headerIndent? at h
  repeat' split at h
  all_goals simp at h
  all_goals
    obtain ⟨-, rfl⟩ := h
    simp

theorem blockHeader?_length {cs rest : List Char} {header : BlockHeader}
    (h : blockHeader? cs = some (header, rest)) : rest.length ≤ cs.length := by
  unfold blockHeader? at h
  split at h
  · rename_i chomp after hc
    obtain ⟨⟨indent, r⟩, hi, he⟩ := Option.map_eq_some_iff.mp h
    obtain ⟨-, rfl⟩ := Prod.mk.inj he
    exact Nat.le_trans (headerIndent?_length hi) (chomp?_length hc)
  · obtain ⟨⟨indent, r⟩, hi, he⟩ := Option.map_eq_some_iff.mp h
    have hle := headerIndent?_length hi
    dsimp only at he
    split at he
    · rename_i hc
      obtain ⟨-, rfl⟩ := Prod.mk.inj he
      exact Nat.le_trans (chomp?_length hc) hle
    · obtain ⟨-, rfl⟩ := Prod.mk.inj he
      exact hle

namespace Cursor

/-! ### Indentation -/

/-- Moves over the spaces that indent a line, as far as an indentation if that is known. -/
def skipIndent (indent : Option Nat) (c : Cursor) : Cursor :=
  let spaces := (c.rest.takeWhile (· == ' ')).length
  let count := indent.elim spaces fun n => min spaces (n - c.column)
  c.pass (c.rest.take count) (c.rest.drop count)

theorem skipIndent_length (indent : Option Nat) (c : Cursor) :
    (c.skipIndent indent).rest.length ≤ c.rest.length := by
  simp [skipIndent]

/-- Whether a tab stands where the indentation is still open. -/
def tabIndents (indent : Option Nat) (c : Cursor) : Bool :=
  c.isAt '\t' && indent.all (c.column < ·)

/-- The line breaks of empty lines, the depth of the deepest line met, and the place in the line
behind them. -/
def emptyLines? (indent : Option Nat) (c : Cursor) : Option (List Char × Nat × Cursor) :=
  if (c.skipIndent indent).tabIndents indent then none
  else
    match h : (c.skipIndent indent).lineBreak? with
    | none => some ([], (c.skipIndent indent).column, c.skipIndent indent)
    | some (x, next) =>
      have := lineBreak?_length h
      have := skipIndent_length indent c
      (next.emptyLines? indent).map fun (more, depth, e) =>
        (x :: more, max (c.skipIndent indent).column depth, e)
termination_by c.rest.length

theorem emptyLines?_length {indent : Option Nat} {c c' : Cursor} {breaks : List Char} {depth : Nat}
    (h : c.emptyLines? indent = some (breaks, depth, c')) : c'.rest.length ≤ c.rest.length := by
  fun_induction emptyLines? indent c generalizing breaks depth with
  | case1 => simp at h
  | case2 c _ hb =>
    simp only [Option.some.injEq, Prod.mk.injEq] at h
    rw [← h.2.2]
    exact skipIndent_length indent c
  | case3 c _ x next hb hlt hle ih =>
    obtain ⟨⟨more, d, e⟩, hm, he⟩ := Option.map_eq_some_iff.mp h
    simp only [Prod.mk.injEq] at he
    obtain ⟨-, -, rfl⟩ := he
    have := ih hm
    omega

/-! ### Lines -/

/-- The rest of a line without its break, the break if there is one, and the place behind it. -/
def restOfLine (c : Cursor) : List Char × List Char × Cursor :=
  let text := c.rest.takeWhile (!isBreak ·)
  let stop := c.skipWhile (!isBreak ·)
  match stop.lineBreak? with
  | some (x, next) => (text, [x], next)
  | none => (text, [], stop)

theorem restOfLine_length_lt {c : Cursor} (h : c.rest ≠ []) :
    c.restOfLine.2.2.rest.length < c.rest.length := by
  have hle : (c.skipWhile (!isBreak ·)).rest.length ≤ c.rest.length := skipWhile_length c _
  unfold restOfLine
  dsimp only
  split
  · rename_i hb
    have := lineBreak?_length hb
    dsimp only
    omega
  · rename_i hb
    obtain ⟨x, rest, hc⟩ := List.exists_cons_of_ne_nil h
    by_cases hx : isBreak x
    · -- A line that is empty has a break to read.
      have hsame : (c.skipWhile (!isBreak ·)).rest = x :: rest := by
        simp [skipWhile, hc, hx]
      exact absurd hb (lineBreak?_ne_none hsame hx)
    · have hskip : (c.skipWhile (!isBreak ·)).rest.length ≤ rest.length := by
        rw [skipWhile, rest_pass, hc, List.dropWhile_cons_of_pos (by simp [hx])]
        exact (List.dropWhile_suffix _).length_le
      simp only [hc, List.length_cons]
      omega

/-- Whether a blank comes next. -/
def isAtBlank (c : Cursor) : Bool := c.rest.head?.any isBlank

/-- What joins a line to the one before it, given the break of that line and those of the empty
lines between. A folded scalar joins two lines that do not start with a blank. -/
def lineJoint (folded : Bool) (lead breaks : List Char) (blank : Bool) : List Char :=
  if folded && lead == ['\n'] && !blank then
    if breaks = [] then [' '] else breaks
  else lead ++ breaks

/-- The lines of a block scalar from some line on, and the place behind them. Given are the break
of the line before, the breaks of the empty lines between, and whether the line before starts with
a blank. -/
def blockLines? (folded : Bool) (chomp : Chomp) (indent : Nat) (lead breaks : List Char)
    (blank : Bool) (c : Cursor) : Option (List Char × Cursor) :=
  if h : c.column = indent ∧ c.rest ≠ [] then
    match hm : c.restOfLine.2.2.emptyLines? (some indent) with
    | none => none
    | some (breaks', _, c') =>
      have := restOfLine_length_lt h.2
      have := emptyLines?_length hm
      (c'.blockLines? folded chomp indent c.restOfLine.2.1 breaks' c.isAtBlank).map
        fun (more, e) =>
          (lineJoint folded lead breaks (blank || c.isAtBlank) ++ c.restOfLine.1 ++ more, e)
  else some (chomp.text lead breaks, c)
termination_by c.rest.length

theorem blockLines?_length {folded : Bool} {chomp : Chomp} {indent : Nat} {lead breaks : List Char}
    {blank : Bool} {c c' : Cursor} {text : List Char}
    (h : c.blockLines? folded chomp indent lead breaks blank = some (text, c')) :
    c'.rest.length ≤ c.rest.length := by
  fun_induction blockLines? folded chomp indent lead breaks blank c generalizing text with
  | case1 => simp at h
  | case2 lead breaks blank c hc breaks' d e hm hlt hle ih =>
    obtain ⟨⟨more, f⟩, hf, he⟩ := Option.map_eq_some_iff.mp h
    obtain ⟨-, rfl⟩ := Prod.mk.inj he
    have := ih hf
    omega
  | case3 =>
    obtain ⟨-, rfl⟩ := Prod.mk.inj (Option.some.inj h)
    exact Nat.le_refl _

/-- What is left of a block scalar behind its first mark, and the place behind it. Its lines have
to reach the limit. -/
def block? (folded : Bool) (limit : Nat) (c : Cursor) : Option (List Char × Cursor) :=
  match blockHeader? c.rest with
  | none => none
  | some (header, rest) =>
    match (c.moveTo rest).endLine? with
    | none => none
    | some start =>
      let indent := header.indent.map (limit - 1 + ·)
      match start.emptyLines? indent with
      | none => none
      | some (breaks, depth, c') =>
        c'.blockLines? folded header.chomp (indent.getD (max depth (max limit 1))) [] breaks false

theorem block?_length {folded : Bool} {limit : Nat} {c c' : Cursor} {text : List Char}
    (h : c.block? folded limit = some (text, c')) : c'.rest.length ≤ c.rest.length := by
  unfold block? at h
  split at h
  · simp at h
  · rename_i header rest hh
    split at h
    · simp at h
    · rename_i start hs
      dsimp only at h
      split at h
      · simp at h
      · rename_i breaks depth d he
        have h₁ := blockHeader?_length hh
        have h₂ := endLine?_length hs
        have h₃ := emptyLines?_length he
        have h₄ := blockLines?_length h
        simp only [rest_moveTo] at h₂
        omega

end Cursor

end AlarmDischarge.Yaml
