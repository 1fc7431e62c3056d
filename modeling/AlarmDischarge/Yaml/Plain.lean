import AlarmDischarge.Yaml.Gap

/-!
# `AlarmDischarge.Yaml.Plain`: plain scalars

A plain scalar is a run of words without quotes. It ends before a colon that ends a word, before a
comment, and inside brackets before a bracket or a comma. It may go on over several lines as long
as they stand further in than what holds it.

Main definitions: `plainRun?`, `Cursor.plain?`.
-/

set_option autoImplicit false

namespace AlarmDischarge.Yaml

/-- Whether a colon is out of place inside brackets: a bracket, a comma or a question mark follows
it. -/
def isStrayColon (rest : List Char) : Bool :=
  rest.head?.any fun c => isFlowMark c || c == '?'

/-- The characters of a plain scalar up to a space or the end of the scalar, and what follows. -/
def plainRun? (inFlow : Bool) : List Char → Option (List Char × List Char)
  | [] => some ([], [])
  | c :: rest =>
    if isSpace c then some ([], c :: rest)
    else if inFlow && c == ':' && isStrayColon rest then none
    else if (c == ':' && endsWord rest) || (inFlow && isFlowMark c) then some ([], c :: rest)
    else (plainRun? inFlow rest).map fun (run, after) => (c :: run, after)

theorem plainRun?_length {inFlow : Bool} {cs run after : List Char}
    (h : plainRun? inFlow cs = some (run, after)) : after.length ≤ cs.length := by
  fun_induction plainRun? inFlow cs generalizing run after with
  | case1 => simp_all
  | case2 => simp_all
  | case3 => simp at h
  | case4 => simp_all
  | case5 c rest _ _ _ ih =>
    obtain ⟨⟨r, a⟩, hr, he⟩ := Option.map_eq_some_iff.mp h
    obtain ⟨-, rfl⟩ := Prod.mk.inj he
    have := ih hr
    simp only [List.length_cons]
    omega

namespace Cursor

/-- Whether a plain scalar ends at the place behind a gap of it. -/
def endsPlain (inFlow : Bool) (limit : Nat) (c : Cursor) : Bool :=
  (!inFlow && c.column < limit) || (c.column == 0 && isDocumentMark c.rest) || c.isAt '#'

/-- What is left of a plain scalar, and the place behind it and the space that follows it. Lines
that do not reach the limit do not belong to it, and no tab may stand before the limit. -/
def plain? (inFlow : Bool) (limit : Nat) (c : Cursor) : Option (List Char × Cursor) :=
  match hr : plainRun? inFlow c.rest with
  | none => none
  | some (run, []) => some (run, c.pass run [])
  | some (run, x :: rest) =>
    if hx : isSpace x then
      match hg : (c.pass run (x :: rest)).gap? limit with
      | none => none
      | some (gap, c') =>
        have := plainRun?_length hr
        have : c'.rest.length < (x :: rest).length := gap?_length_lt hx rfl hg
        if c'.endsPlain inFlow limit then some (run, c')
        else
          (c'.plain? inFlow limit).map fun (more, e) =>
            (if more = [] then run else run ++ gap.text ++ more, e)
    else some (run, c.pass run (x :: rest))
termination_by c.rest.length

theorem plain?_length {inFlow : Bool} {limit : Nat} {c c' : Cursor} {text : List Char}
    (h : c.plain? inFlow limit = some (text, c')) : c'.rest.length ≤ c.rest.length := by
  fun_induction plain? inFlow limit c generalizing text with
  | case1 => simp at h
  | case2 c run hr =>
    obtain ⟨-, rfl⟩ := Prod.mk.inj (Option.some.inj h)
    simp
  | case3 => simp at h
  | case4 c run x rest hr hx gap d hg hle hlt hend =>
    obtain ⟨-, rfl⟩ := Prod.mk.inj (Option.some.inj h)
    omega
  | case5 c run x rest hr hx gap d hg hle hlt hend ih =>
    obtain ⟨⟨more, e⟩, hm, he⟩ := Option.map_eq_some_iff.mp h
    obtain ⟨-, rfl⟩ := Prod.mk.inj he
    have := ih hm
    omega
  | case6 c run x rest hr hx =>
    obtain ⟨-, rfl⟩ := Prod.mk.inj (Option.some.inj h)
    exact plainRun?_length hr

end Cursor

end AlarmDischarge.Yaml
