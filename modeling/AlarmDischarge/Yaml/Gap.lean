import AlarmDischarge.Yaml.Cursor

/-!
# `AlarmDischarge.Yaml.Gap`: spaces inside a scalar

Between two words of a scalar stand blanks, or line breaks with blanks around them. Blanks on one
line are kept. Line breaks are folded: a single one counts as a blank, and of several the first is
dropped.

Main definitions: `Gap`, `Gap.text`, `Cursor.gap?`.
-/

set_option autoImplicit false

namespace AlarmDischarge.Yaml

/-- What stands between two words of a scalar: the blanks before the first line break, and the line
breaks. -/
structure Gap where
  blanks : List Char
  breaks : List Char
deriving DecidableEq

/-- Line breaks as they count in a folded text. -/
def foldBreaks : List Char → List Char
  | [] => []
  | '\n' :: [] => [' ']
  | '\n' :: more => more
  | breaks => breaks

/-- A gap as it counts in a scalar. -/
def Gap.text (g : Gap) : List Char := if g.breaks = [] then g.blanks else foldBreaks g.breaks

namespace Cursor

/-- Moves over the blanks at the start of a line, where no tab may stand before a column. -/
def indented? (c : Cursor) (column : Nat) : Option Cursor :=
  if '\t' ∈ (c.rest.takeWhile isBlank).take (column - c.column) then none
  else some (c.skipWhile isBlank)

theorem indented?_length {c c' : Cursor} {column : Nat} (h : c.indented? column = some c') :
    c'.rest.length ≤ c.rest.length := by
  unfold indented? at h
  split at h
  · simp at h
  · rw [← Option.some.inj h]
    exact skipWhile_length c _

/-- The line breaks that come next, and the place behind them and the blanks among them. -/
def breaks? (c : Cursor) (column : Nat) : Option (List Char × Cursor) :=
  match h : c.lineBreak? with
  | none => some ([], c)
  | some (x, next) =>
    match h' : next.indented? column with
    | none => none
    | some c' =>
      have := lineBreak?_length h
      have := indented?_length h'
      (c'.breaks? column).map fun (more, c'') => (x :: more, c'')
termination_by c.rest.length

theorem breaks?_length {c c' : Cursor} {column : Nat} {xs : List Char}
    (h : c.breaks? column = some (xs, c')) : c'.rest.length ≤ c.rest.length := by
  fun_induction breaks? c column generalizing xs with
  | case1 c hc =>
    obtain ⟨-, rfl⟩ := Prod.mk.inj (Option.some.inj h)
    exact Nat.le_refl _
  | case2 => simp at h
  | case3 c x next hb d hi hlt hle ih =>
    obtain ⟨⟨more, e⟩, hm, he⟩ := Option.map_eq_some_iff.mp h
    obtain ⟨-, rfl⟩ := Prod.mk.inj he
    have := ih hm
    omega

/-- The gap that comes next, and the place behind it. -/
def gap? (c : Cursor) (column : Nat) : Option (Gap × Cursor) :=
  ((c.skipWhile isBlank).breaks? column).map fun (breaks, c') =>
    (⟨c.rest.takeWhile isBlank, breaks⟩, c')

/-- A gap that starts with a space is not empty. -/
theorem gap?_length_lt {c c' : Cursor} {column : Nat} {g : Gap} {x : Char} {rest : List Char}
    (hx : isSpace x) (hc : c.rest = x :: rest) (h : c.gap? column = some (g, c')) :
    c'.rest.length < c.rest.length := by
  obtain ⟨⟨xs, d⟩, hb, he⟩ := Option.map_eq_some_iff.mp h
  obtain ⟨-, rfl⟩ := Prod.mk.inj he
  by_cases hblank : isBlank x
  · -- The blank itself is skipped.
    have hskip : (c.skipWhile isBlank).rest.length ≤ rest.length := by
      simp only [skipWhile, rest_pass, hc, List.dropWhile_cons_of_pos hblank]
      exact (List.dropWhile_suffix _).length_le
    have := breaks?_length hb
    simp only [hc, List.length_cons]
    omega
  · -- No blank is skipped, and the line break is read.
    have hbreak : isBreak x := by simpa [isSpace, hblank] using hx
    have hsame : (c.skipWhile isBlank).rest = x :: rest := by
      simp [skipWhile, hc, hblank]
    have hlen : (c.skipWhile isBlank).rest.length = c.rest.length := by rw [hsame, hc]
    unfold breaks? at hb
    split at hb
    · rename_i hnone
      exact absurd hnone (lineBreak?_ne_none hsame hbreak)
    · rename_i y next hbr
      split at hb
      · simp at hb
      · rename_i e hi
        obtain ⟨⟨more, f⟩, hm, hf⟩ := Option.map_eq_some_iff.mp hb
        obtain ⟨-, rfl⟩ := Prod.mk.inj hf
        have := lineBreak?_length hbr
        have := indented?_length hi
        have := breaks?_length hm
        omega

end Cursor

end AlarmDischarge.Yaml
