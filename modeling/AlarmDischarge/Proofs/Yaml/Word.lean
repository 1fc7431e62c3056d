import AlarmDischarge.Yaml.Token

/-!
# `AlarmDischarge.Proofs.Yaml.Word`: reading a word of a YAML text

Names, numbers and truth values are words: letters, digits and underscores. A word means the same to
the reader wherever it stands, so what the reader does with one can be said once:

* `Cursor.skipSpace_spaces`, `Cursor.skipSpace_newline`: the space before a word is skipped;
* `Token.read?_key`: a word before the colon of an entry is a plain scalar;
* `Token.read?_lastWord`: so is a word at the end of a line, if the next line does not go on with
  it. It takes the line break with it, and the blanks that indent the next line.
-/

set_option autoImplicit false

namespace AlarmDischarge.Yaml

/-! ### Characters of words -/

/-- Whether a character may stand in a word. -/
def isNameChar (c : Char) : Bool := c.isAlphanum || c == '_'

section NameChar

variable {c : Char} (hc : isNameChar c = true)

include hc

theorem toNat_of_isNameChar : 0x30 ≤ c.toNat ∧ c.toNat ≤ 0x7A := by
  have hrange {low high : Char} (hlow : low.val ≤ c.val) (hhigh : c.val ≤ high.val) :
      low.toNat ≤ c.toNat ∧ c.toNat ≤ high.toNat :=
    ⟨UInt32.le_iff_toNat_le.mp hlow, UInt32.le_iff_toNat_le.mp hhigh⟩
  rcases Bool.or_eq_true_iff.mp hc with halnum | hline
  · rcases Bool.or_eq_true_iff.mp halnum with halpha | hdigit
    · rcases Bool.or_eq_true_iff.mp halpha with hupper | hlower
      · obtain ⟨hlow, hhigh⟩ := of_decide_eq_true hupper
        have hletter : 0x41 ≤ c.toNat ∧ c.toNat ≤ 0x5A := hrange hlow hhigh
        omega
      · obtain ⟨hlow, hhigh⟩ := Bool.and_eq_true_iff.mp hlower
        have hletter : 0x61 ≤ c.toNat ∧ c.toNat ≤ 0x7A :=
          hrange (of_decide_eq_true hlow) (of_decide_eq_true hhigh)
        omega
    · obtain ⟨hlow, hhigh⟩ := Bool.and_eq_true_iff.mp hdigit
      have hnumeral : 0x30 ≤ c.toNat ∧ c.toNat ≤ 0x39 :=
        hrange (of_decide_eq_true hlow) (of_decide_eq_true hhigh)
      omega
  · rw [beq_iff_eq.mp hline]
    decide

/-- A character of a word is none of those with a meaning of their own. -/
theorem ne_of_isNameChar {x : Char} (hx : isNameChar x = false) : c ≠ x := by
  rintro rfl
  rw [hc] at hx
  cases hx

theorem not_mem_of_isNameChar {xs : List Char} (hxs : xs.all (fun x => !isNameChar x) = true) :
    c ∉ xs := by
  intro hmem
  have hx := List.all_eq_true.mp hxs c hmem
  rw [hc] at hx
  cases hx

theorem isPrintable_of_isNameChar : isPrintable c = true := by
  have hbounds := toNat_of_isNameChar hc
  have hprint : (0x20 ≤ c.toNat && c.toNat ≤ 0x7E) = true := by
    rw [Bool.and_eq_true, decide_eq_true_eq, decide_eq_true_eq]
    omega
  simp only [isPrintable, hprint, Bool.or_true, Bool.true_or]

theorem utf8Size_of_isNameChar : c.utf8Size = 1 := by
  have hbounds := toNat_of_isNameChar hc
  rw [Char.utf8Size_eq_one_iff, UInt32.le_iff_toNat_le]
  exact Nat.le_trans hbounds.2 (by decide)

theorem isBlank_of_isNameChar : isBlank c = false := by
  rw [isBlank, beq_eq_false_iff_ne.mpr (ne_of_isNameChar hc (x := ' ') (by decide)),
    beq_eq_false_iff_ne.mpr (ne_of_isNameChar hc (x := '\t') (by decide))]
  rfl

theorem isBreak_of_isNameChar : isBreak c = false :=
  decide_eq_false (not_mem_of_isNameChar hc (by decide))

theorem isSpace_of_isNameChar : isSpace c = false := by
  rw [isSpace, isBlank_of_isNameChar hc, isBreak_of_isNameChar hc]
  rfl

theorem isFlowMark_of_isNameChar : isFlowMark c = false :=
  decide_eq_false (not_mem_of_isNameChar hc (by decide))

theorem isDocumentMark_of_isNameChar (cs : List Char) : isDocumentMark (c :: cs) = false := by
  unfold isDocumentMark
  split
  case h_3 => rfl
  case h_1 heq | h_2 heq =>
    obtain ⟨rfl, -⟩ := List.cons.inj heq
    cases hc

theorem indicator?_of_isNameChar (inFlow : Bool) (cs : List Char) :
    indicator? inFlow c cs = none := by
  unfold indicator?
  split
  case h_9 => rfl
  all_goals cases hc

theorem startsPlain_of_isNameChar (inFlow : Bool) (cs : List Char) :
    startsPlain inFlow c cs = true := by
  have hdash : (c == '-') = false := beq_eq_false_iff_ne.mpr (ne_of_isNameChar hc (by decide))
  have hkey : (c == '?' || c == ':') = false := by
    rw [beq_eq_false_iff_ne.mpr (ne_of_isNameChar hc (x := '?') (by decide)),
      beq_eq_false_iff_ne.mpr (ne_of_isNameChar hc (x := ':') (by decide))]
    rfl
  unfold startsPlain
  rw [hdash, hkey, isSpace_of_isNameChar hc, isFlowMark_of_isNameChar hc]
  exact decide_eq_true (not_mem_of_isNameChar hc (by decide))

end NameChar

/-! ### What ends the space before a word -/

/-- A text that does not begin with what may stand in the margin of a line. -/
def EndsMargin (cs : List Char) : Prop :=
  ∀ x ∈ cs.head?, isBlank x = false ∧ x ≠ '#' ∧ x ≠ '\ufeff'

/-- A text that is over, or begins with a word or a colon. -/
def StartsApart (cs : List Char) : Prop := ∀ x ∈ cs.head?, isNameChar x = true ∨ x = ':'

theorem endsMargin_newline (cs : List Char) : EndsMargin ('\n' :: cs) := by
  intro x hx
  rw [← Option.some.inj hx]
  decide

/-- No blanks of any kind follow. -/
theorem EndsMargin.takeWhile_eq_nil {cs : List Char} {p : Char → Bool} (h : EndsMargin cs)
    (hp : ∀ c, p c = true → isBlank c = true) : cs.takeWhile p = [] := by
  cases cs with
  | nil => rfl
  | cons x cs =>
    refine List.takeWhile_cons_of_neg fun hx => ?_
    have hblank := (h x rfl).1
    rw [hp x hx] at hblank
    cases hblank

theorem startsApart_nil : StartsApart [] := by
  intro x hx
  cases hx

namespace StartsApart

variable {cs : List Char} (h : StartsApart cs)

include h

theorem endsMargin : EndsMargin cs := by
  intro x hx
  rcases h x hx with hname | rfl
  · exact ⟨isBlank_of_isNameChar hname, ne_of_isNameChar hname (by decide),
      ne_of_isNameChar hname (by decide)⟩
  · decide

theorem isBreak_eq_false {x : Char} (hx : x ∈ cs.head?) : isBreak x = false := by
  rcases h x hx with hname | rfl
  · exact isBreak_of_isNameChar hname
  · decide

end StartsApart

/-! ### Places in a line -/

namespace Cursor

/-- A place in a line whose characters so far take one byte each. -/
def atColumn (line column : Nat) (fresh : Bool) (rest : List Char) : Cursor :=
  { rest, line, column, width := column, fresh }

variable {k m n : Nat} {fresh : Bool} {cs rest : List Char}

theorem pass_atColumn (hcs : ∀ c ∈ cs, c.utf8Size = 1) (text : List Char) :
    (atColumn k n fresh text).pass cs rest =
      atColumn k (n + cs.length) (fresh && cs.all isBlank) rest := by
  -- The width is summed up from the left, so the induction is for any width at which the sum starts.
  have hwidth : ∀ w : Nat, cs.foldl (fun w x => w + x.utf8Size) w = w + cs.length := by
    induction cs with
    | nil =>
      intro w
      rfl
    | cons c cs ih =>
      intro w
      rw [List.foldl_cons, hcs c List.mem_cons_self,
        ih fun d hd => hcs d (List.mem_cons_of_mem c hd), List.length_cons]
      omega
  unfold pass atColumn
  rw [hwidth]

/-- One character that is no blank. -/
theorem pass_single {x : Char} (hsize : x.utf8Size = 1) (hx : isBlank x = false)
    (text : List Char) :
    (atColumn k n fresh text).pass [x] rest = atColumn k (n + 1) false rest := by
  have hall : ∀ c ∈ [x], c.utf8Size = 1 := by
    intro c hc
    rw [List.mem_singleton.mp hc]
    exact hsize
  rw [pass_atColumn hall, List.all_cons, hx, Bool.false_and, Bool.and_false]
  rfl

theorem pass_replicate (text : List Char) :
    (atColumn k n fresh text).pass (List.replicate m ' ') rest = atColumn k (n + m) fresh rest := by
  have hsize : ∀ c ∈ List.replicate m ' ', c.utf8Size = 1 :=
    List.forall_mem_replicate.mpr (.inr rfl)
  have hblank : (List.replicate m ' ').all isBlank = true :=
    List.all_eq_true.mpr (List.forall_mem_replicate.mpr (.inr rfl))
  rw [pass_atColumn hsize, List.length_replicate, hblank, Bool.and_true]

theorem takeWhile_spaces {p : Char → Bool} (hspace : p ' ' = true) (hrest : rest.takeWhile p = []) :
    (List.replicate m ' ' ++ rest).takeWhile p = List.replicate m ' ' := by
  have hall : ∀ c ∈ List.replicate m ' ', p c = true :=
    List.forall_mem_replicate.mpr (.inr hspace)
  rw [List.takeWhile_append_of_pos hall, hrest, List.append_nil]

/-- Blanks before what is written next are a run of any kind of characters that they belong to. -/
theorem skipWhile_spaces {p : Char → Bool} (hspace : p ' ' = true) (hrest : rest.takeWhile p = []) :
    (atColumn k n fresh (List.replicate m ' ' ++ rest)).skipWhile p =
      atColumn k (n + m) fresh rest := by
  have htake : (List.replicate m ' ' ++ rest).takeWhile p = List.replicate m ' ' :=
    takeWhile_spaces hspace hrest
  have hdrop : (List.replicate m ' ' ++ rest).dropWhile p = rest := by
    have hsplit := List.takeWhile_append_dropWhile (p := p) (l := List.replicate m ' ' ++ rest)
    rw [htake] at hsplit
    exact List.append_cancel_left hsplit
  show (atColumn k n fresh _).pass ((List.replicate m ' ' ++ rest).takeWhile p)
    ((List.replicate m ' ' ++ rest).dropWhile p) = _
  rw [htake, hdrop, pass_replicate]

/-! ### Space before a word -/

theorem lineBreak?_newline :
    (atColumn k n fresh ('\n' :: rest)).lineBreak? = some ('\n', atColumn (k + 1) 0 true rest) :=
  rfl

theorem lineBreak?_of_startsApart (hrest : StartsApart rest) :
    (atColumn k n fresh rest).lineBreak? = none := by
  unfold lineBreak?
  split
  · rename_i heq
    have hbreak := hrest.isBreak_eq_false (congrArg List.head? heq)
    cases hbreak
  · rename_i heq
    rw [hrest.isBreak_eq_false (congrArg List.head? heq)]
    rfl
  · rfl

theorem skipOrderMark_eq_self {c : Cursor} (hc : c.rest.head? ≠ some '\ufeff') :
    c.skipOrderMark = c := by
  unfold skipOrderMark
  split
  · rename_i heq
    rw [heq] at hc
    exact absurd rfl hc
  · rfl

theorem skipComment_eq_self {c : Cursor} (hc : c.rest.head? ≠ some '#') : c.skipComment = c := by
  unfold skipComment isAt
  rw [beq_eq_false_iff_ne.mpr hc]
  rfl

/-- Of a margin that has only blanks in it, the blanks are skipped and nothing else. -/
theorem skipMargin_spaces (hrest : EndsMargin rest) (tabs : Bool) :
    (atColumn k n fresh (List.replicate m ' ' ++ rest)).skipMargin tabs =
      atColumn k (n + m) fresh rest := by
  have hmark : (List.replicate m ' ' ++ rest).head? ≠ some '\ufeff' := by
    cases m with
    | zero =>
      intro hhead
      exact (hrest _ hhead).2.2 rfl
    | succ m =>
      rw [List.replicate_succ, List.cons_append, List.head?_cons]
      decide
  have hstop : rest.takeWhile (fun x => x == ' ' || (tabs && x == '\t')) = [] := by
    refine hrest.takeWhile_eq_nil fun c hc => ?_
    rcases Bool.or_eq_true_iff.mp hc with hspace | htab
    · rw [isBlank, hspace]
      rfl
    · rw [isBlank, (Bool.and_eq_true_iff.mp htab).2, Bool.or_true]
  unfold skipMargin
  rw [skipOrderMark_eq_self hmark, skipWhile_spaces (by rfl) hstop]
  refine skipComment_eq_self ?_
  intro hhead
  exact (hrest _ hhead).2.1 rfl

/-- Blanks before a word are skipped. -/
theorem skipSpace_spaces (hrest : StartsApart rest) (inFlow keyAllowed : Bool) :
    (atColumn k n fresh (List.replicate m ' ' ++ rest)).skipSpace inFlow keyAllowed =
      (keyAllowed, atColumn k (n + m) fresh rest) := by
  unfold skipSpace
  split
  · rename_i hbreak
    rw [skipMargin_spaces hrest.endsMargin, lineBreak?_of_startsApart hrest] at hbreak
    cases hbreak
  · rw [skipMargin_spaces hrest.endsMargin]

/-- A line break is skipped. Outside of brackets a key may stand behind it. -/
theorem skipSpace_newline (keyAllowed : Bool) :
    (atColumn k n fresh ('\n' :: rest)).skipSpace false keyAllowed =
      (atColumn (k + 1) 0 true rest).skipSpace false true := by
  have hmargin (tabs : Bool) : (atColumn k n fresh ('\n' :: rest)).skipMargin tabs =
      atColumn k n fresh ('\n' :: rest) :=
    skipMargin_spaces (m := 0) (endsMargin_newline rest) tabs
  conv => lhs; unfold skipSpace
  split
  · rename_i hbreak
    rw [hmargin, lineBreak?_newline] at hbreak
    obtain ⟨-, rfl⟩ := Prod.mk.inj (Option.some.inj hbreak)
    rw [Bool.not_false, Bool.or_true]
  · rename_i hbreak
    rw [hmargin, lineBreak?_newline] at hbreak
    cases hbreak

/-! ### Plain scalars that are words -/

/-- A run of a plain scalar goes through a word up to where it may end. -/
theorem plainRun?_word {w : List Char} (hw : ∀ c ∈ w, isNameChar c = true)
    (hend : plainRun? false rest = some ([], rest)) :
    plainRun? false (w ++ rest) = some (w, rest) := by
  induction w with
  | nil => exact hend
  | cons c w ih =>
    have hc : isNameChar c = true := hw c List.mem_cons_self
    have hcolon : (c == ':') = false := beq_eq_false_iff_ne.mpr (ne_of_isNameChar hc (by decide))
    rw [List.cons_append, plainRun?, isSpace_of_isNameChar hc, hcolon,
      ih fun d hd => hw d (List.mem_cons_of_mem c hd)]
    rfl

theorem plainRun?_colon (hrest : endsWord rest = true) :
    plainRun? false (':' :: rest) = some ([], ':' :: rest) := by
  rw [plainRun?, hrest]
  rfl

theorem plainRun?_newline : plainRun? false ('\n' :: rest) = some ([], '\n' :: rest) := by
  rw [plainRun?]
  rfl

theorem breaks?_of_lineBreak?_eq_none {c : Cursor} (h : c.lineBreak? = none) (column : Nat) :
    c.breaks? column = some ([], c) := by
  unfold breaks?
  split
  · rfl
  · rename_i hbreak
    cases h.symm.trans hbreak

/-- Line breaks are read one after the other, with the blanks that indent the lines between them. -/
theorem breaks?_of_lineBreak?_eq_some {c next c' : Cursor} {x : Char} {column : Nat}
    (h : c.lineBreak? = some (x, next)) (hnext : next.indented? column = some c') :
    c.breaks? column = (c'.breaks? column).map fun (more, e) => (x :: more, e) := by
  conv => lhs; unfold breaks?
  split
  · rename_i hbreak
    cases h.symm.trans hbreak
  · rename_i hbreak
    cases h.symm.trans hbreak
    split
    · rename_i hindent
      cases hnext.symm.trans hindent
    · rename_i hindent
      cases hnext.symm.trans hindent
      rfl

/-- Spaces may indent a line, since they are no tabs. -/
theorem indented?_spaces (hrest : EndsMargin rest) (limit : Nat) :
    (atColumn k n fresh (List.replicate m ' ' ++ rest)).indented? limit =
      some (atColumn k (n + m) fresh rest) := by
  have hnone : rest.takeWhile isBlank = [] := hrest.takeWhile_eq_nil fun _ hc => hc
  have htab : '\t' ∉ ((List.replicate m ' ' ++ rest).takeWhile isBlank).take (limit - n) := by
    rw [takeWhile_spaces rfl hnone]
    intro htab
    cases List.eq_of_mem_replicate (List.mem_of_mem_take htab)
  unfold indented?
  rw [skipWhile_spaces rfl hnone]
  exact if_neg htab

/-- The gap at the end of a line reaches up to the first word of the next one. -/
theorem gap?_newline (hrest : StartsApart rest) (limit : Nat) :
    (atColumn k n fresh ('\n' :: (List.replicate m ' ' ++ rest))).gap? limit =
      some (⟨[], ['\n']⟩, atColumn (k + 1) m true rest) := by
  have hskip : (atColumn k n fresh ('\n' :: (List.replicate m ' ' ++ rest))).skipWhile isBlank =
      atColumn k n fresh ('\n' :: (List.replicate m ' ' ++ rest)) :=
    skipWhile_spaces (m := 0) rfl rfl
  have hindent : (atColumn (k + 1) 0 true (List.replicate m ' ' ++ rest)).indented? limit =
      some (atColumn (k + 1) m true rest) := by
    rw [indented?_spaces hrest.endsMargin, Nat.zero_add]
  unfold gap?
  rw [hskip, breaks?_of_lineBreak?_eq_some lineBreak?_newline hindent,
    breaks?_of_lineBreak?_eq_none (lineBreak?_of_startsApart hrest)]
  rfl

section Plain

variable {c c' : Cursor} {w : List Char} {x : Char} {limit : Nat}

/-- A plain scalar ends where its run stops, unless it stops before space. -/
theorem plain?_of_isSpace_eq_false (hrun : plainRun? false c.rest = some (w, x :: rest))
    (hx : isSpace x = false) : c.plain? false limit = some (w, c.pass w (x :: rest)) := by
  unfold plain?
  split
  · rename_i hr
    cases hrun.symm.trans hr
  · rename_i hr
    cases hrun.symm.trans hr
  · rename_i hr
    cases hrun.symm.trans hr
    exact dif_neg (ne_true_of_eq_false hx)

/-- A plain scalar takes the space behind it if it does not go on there. -/
theorem plain?_of_endsPlain {gap : Gap} (hrun : plainRun? false c.rest = some (w, x :: rest))
    (hx : isSpace x = true) (hgap : (c.pass w (x :: rest)).gap? limit = some (gap, c'))
    (hends : c'.endsPlain false limit = true) : c.plain? false limit = some (w, c') := by
  unfold plain?
  split
  · rename_i hr
    cases hrun.symm.trans hr
  · rename_i hr
    cases hrun.symm.trans hr
  · rename_i hr
    cases hrun.symm.trans hr
    rw [dif_pos hx]
    split
    · rename_i hg
      cases hgap.symm.trans hg
    · rename_i hg
      cases hgap.symm.trans hg
      exact if_pos hends

/-- A word before the colon of an entry. -/
theorem plain?_key (hw : ∀ c ∈ w, isNameChar c = true) (hrest : endsWord rest = true) :
    (atColumn k n false (w ++ ':' :: rest)).plain? false limit =
      some (w, atColumn k (n + w.length) false (':' :: rest)) := by
  have hsize : ∀ c ∈ w, c.utf8Size = 1 := fun c hc => utf8Size_of_isNameChar (hw c hc)
  have hrun : plainRun? false (w ++ ':' :: rest) = some (w, ':' :: rest) :=
    plainRun?_word hw (plainRun?_colon hrest)
  rw [plain?_of_isSpace_eq_false hrun rfl, pass_atColumn hsize, Bool.false_and]

/-- A word at the end of a line. The next line does not go on with it if it stands too far out. -/
theorem plain?_lastWord (hw : ∀ c ∈ w, isNameChar c = true) (hrest : StartsApart rest)
    (hm : m < limit) :
    (atColumn k n fresh (w ++ '\n' :: (List.replicate m ' ' ++ rest))).plain? false limit =
      some (w, atColumn (k + 1) m true rest) := by
  have hsize : ∀ c ∈ w, c.utf8Size = 1 := fun c hc => utf8Size_of_isNameChar (hw c hc)
  have hrun : plainRun? false (w ++ '\n' :: (List.replicate m ' ' ++ rest)) =
      some (w, '\n' :: (List.replicate m ' ' ++ rest)) :=
    plainRun?_word hw plainRun?_newline
  have hends : (atColumn (k + 1) m true rest).endsPlain false limit = true := by
    show ((!false && decide (m < limit)) || _ || _) = true
    rw [decide_eq_true hm]
    rfl
  have hgap : ((atColumn k n fresh (w ++ '\n' :: (List.replicate m ' ' ++ rest))).pass w
      ('\n' :: (List.replicate m ' ' ++ rest))).gap? limit =
        some (⟨[], ['\n']⟩, atColumn (k + 1) m true rest) := by
    rw [pass_atColumn hsize, gap?_newline hrest]
  exact plain?_of_endsPlain hrun rfl hgap hends

end Plain

end Cursor

/-! ### Words -/

/-- A text of one character or more, all of which may stand in a word. -/
def IsWord (w : String) : Prop := w.toList ≠ [] ∧ ∀ c ∈ w.toList, isNameChar c = true

-- The instance is named: a search may find the one that goes through all characters there are.
instance (w : String) : Decidable (IsWord w) :=
  @instDecidableAnd _ _ _ (List.decidableBAll _ _)

theorem IsWord.startsApart {w : String} (hw : IsWord w) (rest : List Char) :
    StartsApart (w.toList ++ rest) := by
  obtain ⟨c, cs, hcs⟩ := List.exists_cons_of_ne_nil hw.1
  intro x hx
  rw [hcs] at hx
  refine .inl (hw.2 x ?_)
  rw [hcs, ← Option.some.inj hx]
  exact List.mem_cons_self

namespace Token

variable {k m n limit : Nat} {fresh : Bool} {w : String} {rest : List Char}

/-- What begins with a character of a word is a plain scalar: the character is no mark, no quote and
no start of a directive. -/
theorem read?_of_isNameChar {x : Char} (hx : isNameChar x = true) (cs : List Char) :
    Token.read? false limit (.atColumn k n fresh (x :: cs)) =
      ((Cursor.atColumn k (n + 1) false cs).plain? false limit).map fun (text, e) =>
        (.scalar .plain (.ofList (x :: text)), e) := by
  have hne (y : Char) (hy : isNameChar y = false) : x ≠ y := ne_of_isNameChar hx hy
  have hpass : (Cursor.atColumn k n fresh (x :: cs)).pass [x] cs =
      .atColumn k (n + 1) false cs :=
    Cursor.pass_single (utf8Size_of_isNameChar hx) (isBlank_of_isNameChar hx) _
  show (if n = 0 ∧ x = '%' then _ else if n = 0 ∧ isDocumentMark (x :: cs) then _ else _) = _
  rw [if_neg fun h => hne '%' (by decide) h.2, isDocumentMark_of_isNameChar hx,
    if_neg fun h => Bool.false_ne_true h.2]
  rw [indicator?_of_isNameChar hx]
  show (if x ∈ ['&', '*', '!'] then _ else _) = _
  rw [if_neg (not_mem_of_isNameChar hx (by decide)), hpass]
  unfold readScalar?
  rw [if_neg (hne _ (by decide)), if_neg (hne _ (by decide)), if_neg fun h => hne _ (by decide) h.1,
    if_neg fun h => hne _ (by decide) h.1, if_pos (startsPlain_of_isNameChar hx false _)]

/-- A word before the colon of an entry. -/
theorem read?_key (hw : IsWord w) (hrest : endsWord rest = true) :
    Token.read? false limit (.atColumn k n fresh (w.toList ++ ':' :: rest)) =
      some (.scalar .plain w, .atColumn k (n + w.toList.length) false (':' :: rest)) := by
  obtain ⟨x, xs, hxs⟩ := List.exists_cons_of_ne_nil hw.1
  have hnames := hw.2
  rw [hxs] at hnames
  rw [hxs, List.cons_append, read?_of_isNameChar (hnames x List.mem_cons_self),
    Cursor.plain?_key (fun c hc => hnames c (List.mem_cons_of_mem x hc)) hrest]
  show some (Token.scalar .plain (.ofList (x :: xs)), _) = _
  rw [← hxs, String.ofList_toList, hxs, List.length_cons, Nat.add_right_comm, Nat.add_assoc]

/-- A word at the end of a line, if the next line stands further out than the limit. -/
theorem read?_lastWord (hw : IsWord w) (hrest : StartsApart rest) (hm : m < limit) :
    Token.read? false limit
        (.atColumn k n fresh (w.toList ++ '\n' :: (List.replicate m ' ' ++ rest))) =
      some (.scalar .plain w, .atColumn (k + 1) m true rest) := by
  obtain ⟨x, xs, hxs⟩ := List.exists_cons_of_ne_nil hw.1
  have hnames := hw.2
  rw [hxs] at hnames
  rw [hxs, List.cons_append, read?_of_isNameChar (hnames x List.mem_cons_self),
    Cursor.plain?_lastWord (fun c hc => hnames c (List.mem_cons_of_mem x hc)) hrest hm]
  show some (Token.scalar .plain (.ofList (x :: xs)), _) = _
  rw [← hxs, String.ofList_toList]

/-- The colon of an entry. -/
theorem read?_colon (hrest : endsWord rest = true) :
    Token.read? false limit (.atColumn k n fresh (':' :: rest)) =
      some (.value, .atColumn k (n + 1) false rest) := by
  have hpass : (Cursor.atColumn k n fresh (':' :: rest)).pass [':'] rest =
      .atColumn k (n + 1) false rest :=
    Cursor.pass_single rfl rfl _
  have hmark : indicator? false ':' rest = some .value := by
    show (if (false || endsWord rest) = true then some Token.value else none) = _
    rw [hrest]
    rfl
  show (if n = 0 ∧ ':' = '%' then _ else if n = 0 ∧ isDocumentMark (':' :: rest) then _ else _) = _
  rw [if_neg fun h => absurd h.2 (by decide), if_neg fun h => Bool.false_ne_true h.2]
  rw [hmark]
  show some (Token.value, (Cursor.atColumn k n fresh (':' :: rest)).pass [':'] rest) = _
  rw [hpass]

end Token

end AlarmDischarge.Yaml
