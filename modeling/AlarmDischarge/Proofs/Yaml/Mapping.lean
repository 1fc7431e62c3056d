import AlarmDischarge.Proofs.Yaml.Word
import AlarmDischarge.Yaml.Reader
import Mathlib.Data.List.TakeWhile

/-!
# `AlarmDischarge.Proofs.Yaml.Mapping`: mappings written one entry a line

The reader takes far more texts than anyone writes. Here it is run on those with one entry a line,
two levels deep, each key and each value a word:

    documentText [("version", "1")] "verifier" [("enabled", "true"), …]

A word at the beginning of a line is scanned before the scanner can know that it is a key. So its
place among the tokens is kept, and the colon behind it goes back there: it puts the token of a key
before the word (`Layout.add?_value_same`), and before that the start of a mapping, if none is open
at that column (`Layout.add?_value_deeper`). A value ends with its line, since the next line stands
no further in (`StandsWithin`).

* `scanFrom?_entry`, `scanFrom?_entries`, `scanFrom?_mapping`: the tokens of one entry, of more, and
  of a mapping;
* `scanFrom?_documentText`: the tokens of a document;
* `foldlM_step?_document`: the document that they make;
* `parse?_documentText`: the text is read as that document.
-/

set_option autoImplicit false

namespace AlarmDischarge.Yaml

variable {k m n j : Nat} {ts : List Token} {is outer : List Nat} {w v : String} {rest : List Char}

/-! ### One token -/

namespace Layout

/-- Nothing is closed if the innermost collection stays open. -/
theorem closeBlocks_eq_self {l : Layout} {p : Nat → Bool} (h : ∀ i ∈ l.indents.head?, p i = false) :
    l.closeBlocks p = l := by
  have hnone : l.indents.takeWhile p = [] ∧ l.indents.dropWhile p = l.indents := by
    cases hi : l.indents with
    | nil => exact ⟨rfl, rfl⟩
    | cons i is =>
      have hp : ¬p i = true := by
        rw [h i (by rw [hi]; rfl)]
        decide
      exact ⟨List.takeWhile_cons_of_neg hp, List.dropWhile_cons_of_neg hp⟩
  unfold closeBlocks
  rw [hnone.1, hnone.2]
  split
  · rfl
  · rfl

/-- A token can be put before those that came last. -/
theorem insert_length {l : Layout} (late ts : List Token) (hl : l.tokens = late ++ ts) (t : Token) :
    l.insert ts.length t = { l with tokens := late ++ t :: ts } := by
  have hlate : l.tokens.length - ts.length = late.length := by
    rw [hl, List.length_append, Nat.add_sub_cancel]
  unfold insert
  rw [hlate, hl]
  dsimp only
  rw [List.take_left, List.drop_left]

/-- No mapping is opened at the column of one that is open. -/
theorem openBlock_same {l : Layout} (hl : l.indents.head? = some n) (place : Nat) (t : Token) :
    l.openBlock n place t = l := by
  have hlimit : l.limit = n + 1 := by
    unfold limit
    rw [hl]
    rfl
  unfold openBlock
  rw [hlimit, decide_eq_false (Nat.not_succ_le_self n), Bool.and_false]
  rfl

/-- A mapping is opened further in. -/
theorem openBlock_deeper {l : Layout} (houter : l.outer = []) (hl : ∀ i ∈ l.indents.head?, i < n)
    (place : Nat) (t : Token) :
    l.openBlock n place t = insert { l with indents := n :: l.indents } place t := by
  have hflow : l.inFlow = false := by
    unfold inFlow
    rw [houter]
    rfl
  have hlimit : l.limit ≤ n := by
    unfold limit
    cases hi : l.indents.head? with
    | none => exact Nat.zero_le n
    | some i => exact hl i hi
  unfold openBlock
  rw [hflow, decide_eq_true hlimit]
  rfl

/-- The colon behind a word that may be a key puts the token of a key before the word. -/
theorem add?_value_same {required : Bool} (start stop : Cursor) :
    add?
        { tokens := .scalar .plain w :: ts
          indents := n :: outer
          keyAllowed := false
          key := some ⟨ts.length, k, n, n, required⟩ } .value start stop =
      some
        { tokens := .value :: .scalar .plain w :: .key :: ts
          indents := n :: outer
          keyAllowed := false } := by
  show some (push { openBlock (insert _ ts.length .key) n ts.length .mapStart with
    keyAllowed := false, key := none } .value) = _
  rw [openBlock_same rfl, insert_length [.scalar .plain w] ts rfl]
  rfl

/-- If no mapping is open at the column of the word, it puts the start of one before both. -/
theorem add?_value_deeper {required : Bool} (houter : ∀ i ∈ outer.head?, i < n)
    (start stop : Cursor) :
    add?
        { tokens := .scalar .plain w :: ts
          indents := outer
          keyAllowed := false
          key := some ⟨ts.length, k, n, n, required⟩ } .value start stop =
      some
        { tokens := .value :: .scalar .plain w :: .key :: .mapStart :: ts
          indents := n :: outer
          keyAllowed := false } := by
  show some (push { openBlock (insert _ ts.length .key) n ts.length .mapStart with
    keyAllowed := false, key := none } .value) = _
  rw [insert_length [.scalar .plain w] ts rfl, openBlock_deeper rfl houter,
    insert_length [.scalar .plain w, .key] ts rfl]
  rfl

/-- Nothing but the right to be a key changes where the next token stands in the innermost
collection. -/
theorem arrive?_eq {l : Layout} {c start : Cursor} {allowed : Bool}
    (hskip : l.skipSpace c = (allowed, start)) (houter : l.outer = [])
    (hkey : Candidate.refresh? start l.key = some l.key)
    (hcolumn : ∀ i ∈ l.indents.head?, i ≤ start.column) :
    l.arrive? c = some { l with keyAllowed := allowed } := by
  have hclose : Layout.closeBlocks { l with keyAllowed := allowed } (start.column < ·) =
      { l with keyAllowed := allowed } := by
    refine closeBlocks_eq_self fun i hi => decide_eq_false ?_
    exact Nat.not_lt.mpr (hcolumn i hi)
  unfold arrive?
  rw [hskip, houter]
  show (do
    let key ← Candidate.refresh? start l.key
    let outer ← ([] : List (Option Candidate)).mapM (Candidate.refresh? start)
    return Layout.closeBlocks { l with keyAllowed := allowed, key, outer } (start.column < ·)) = _
  rw [hkey]
  show some (Layout.closeBlocks { l with keyAllowed := allowed, outer := [] } _) = _
  rw [← houter, hclose]

end Layout

namespace Token

/-- Scanning, one token further. -/
theorem scanFrom?_eq (l : Layout) (c : Cursor) :
    Token.scanFrom? l c = (l.arrive? c).bind fun next =>
      if (l.skipSpace c).2.rest = [] then next.finish?
      else (Token.read? next.inFlow next.limit (l.skipSpace c).2).bind fun (t, stop) =>
        (next.add? t (l.skipSpace c).2 stop).bind fun l' => Token.scanFrom? l' stop := by
  conv => lhs; unfold scanFrom?
  cases l.arrive? c with
  | none => rfl
  | some next =>
    show (if _ then _ else _) = (if _ then _ else _)
    by_cases hrest : (l.skipSpace c).2.rest = []
    · rw [if_pos hrest, if_pos hrest]
    · rw [if_neg hrest, if_neg hrest]
      split
      · rename_i heq
        rw [heq]
        rfl
      · rename_i t stop heq
        dsimp only
        rw [heq, Option.bind_some]
        cases next.add? t (l.skipSpace c).2 stop with
        | none => rfl
        | some l' => rfl

/-- Scanning takes a token: it skips the space before it, reads it and adds it to the layout. -/
theorem scanFrom?_token {l l' : Layout} {c start stop : Cursor} {allowed : Bool} {t : Token}
    (hskip : l.skipSpace c = (allowed, start)) (houter : l.outer = [])
    (hkey : Candidate.refresh? start l.key = some l.key)
    (hcolumn : ∀ i ∈ l.indents.head?, i ≤ start.column)
    (hread : Token.read? false l.limit start = some (t, stop))
    (hadd : Layout.add? { l with keyAllowed := allowed } t start stop = some l') :
    Token.scanFrom? l c = Token.scanFrom? l' stop := by
  have hrest : start.rest ≠ [] := by
    intro hnil
    have hlt := Token.read?_length hread
    rw [hnil] at hlt
    exact Nat.not_lt_zero _ hlt
  have hflow : Layout.inFlow { l with keyAllowed := allowed } = false := by
    unfold Layout.inFlow
    rw [houter]
    rfl
  rw [scanFrom?_eq, Layout.arrive?_eq hskip houter hkey hcolumn, Option.bind_some, hskip,
    if_neg hrest, hflow]
  show (Token.read? false l.limit start).bind _ = _
  rw [hread, Option.bind_some]
  show (Layout.add? { l with keyAllowed := allowed } t start stop).bind _ = _
  rw [hadd, Option.bind_some]

/-- Where the next token stands, and whether it may be a key, is all that scanning asks of the space
before it. -/
theorem scanFrom?_congr {l : Layout} {c c' : Cursor} {allowed : Bool}
    (h : l.skipSpace c = Layout.skipSpace { l with keyAllowed := allowed } c') :
    Token.scanFrom? l c = Token.scanFrom? { l with keyAllowed := allowed } c' := by
  have harrive : l.arrive? c = Layout.arrive? { l with keyAllowed := allowed } c' := by
    unfold Layout.arrive?
    rw [h]
  rw [scanFrom?_eq, scanFrom?_eq, harrive, h]

/-- A line break before the next token. -/
theorem scanFrom?_newline {fresh allowed : Bool} :
    Token.scanFrom? { tokens := ts, indents := is, keyAllowed := allowed }
        (.atColumn k n fresh ('\n' :: rest)) =
      Token.scanFrom? { tokens := ts, indents := is } (.atColumn (k + 1) 0 true rest) :=
  scanFrom?_congr (Cursor.skipSpace_newline allowed)

/-- The blanks that indent a line. -/
theorem scanFrom?_spaces (hrest : StartsApart rest) :
    Token.scanFrom? { tokens := ts, indents := is } (.atColumn k m true rest) =
      Token.scanFrom? { tokens := ts, indents := is }
        (.atColumn k 0 true (List.replicate m ' ' ++ rest)) := by
  refine scanFrom?_congr ?_
  show (Cursor.atColumn k m true rest).skipSpace false true =
    (Cursor.atColumn k 0 true (List.replicate m ' ' ++ rest)).skipSpace false true
  rw [Cursor.skipSpace_spaces hrest, Nat.zero_add]
  exact Cursor.skipSpace_spaces (m := 0) hrest false true

/-! ### One line -/

/-- The first word of a line of block style may be a key, and its place is kept. -/
theorem scanFrom?_word (hw : IsWord w) (hrest : endsWord rest = true)
    (his : ∀ i ∈ is.head?, i ≤ n) :
    Token.scanFrom? { tokens := ts, indents := is }
        (.atColumn k 0 true (List.replicate n ' ' ++ (w.toList ++ ':' :: rest))) =
      Token.scanFrom?
        { tokens := .scalar .plain w :: ts
          indents := is
          keyAllowed := false
          key := some ⟨ts.length, k, n, n, is.head? == some n⟩ }
        (.atColumn k (n + w.toList.length) false (':' :: rest)) := by
  have hskip : (Cursor.atColumn k 0 true
      (List.replicate n ' ' ++ (w.toList ++ ':' :: rest))).skipSpace false true =
        (true, .atColumn k n true (w.toList ++ ':' :: rest)) := by
    rw [Cursor.skipSpace_spaces (hw.startsApart _), Nat.zero_add]
  exact scanFrom?_token hskip rfl rfl his (read?_key hw hrest) rfl

/-- A place that was kept is good on its line for as long as keys may be. -/
theorem refresh?_atColumn {place : Nat} {required fresh : Bool} (hm : m ≤ n + 1024) :
    Candidate.refresh? (.atColumn k m fresh rest) (some ⟨place, k, n, n, required⟩) =
      some (some ⟨place, k, n, n, required⟩) := by
  have hstale :
      Candidate.isStale ⟨place, k, n, n, required⟩ (.atColumn k m fresh rest) = false := by
    show (k != k || decide (n + 1024 < m)) = false
    rw [bne_self_eq_false, decide_eq_false (Nat.not_lt.mpr hm)]
    rfl
  unfold Candidate.refresh?
  dsimp only
  rw [hstale]
  rfl

/-- A key and its colon. -/
theorem scanFrom?_key {l' : Layout} (hw : IsWord w) (hlength : w.toList.length ≤ 1024)
    (hrest : endsWord rest = true) (his : ∀ i ∈ is.head?, i ≤ n)
    (hadd : ∀ start stop, Layout.add?
      { tokens := .scalar .plain w :: ts
        indents := is
        keyAllowed := false
        key := some ⟨ts.length, k, n, n, is.head? == some n⟩ } .value start stop = some l') :
    Token.scanFrom? { tokens := ts, indents := is }
        (.atColumn k 0 true (List.replicate n ' ' ++ (w.toList ++ ':' :: rest))) =
      Token.scanFrom? l' (.atColumn k (n + w.toList.length + 1) false rest) := by
  have hapart : StartsApart (':' :: rest) := fun x hx => .inr (Option.some.inj hx).symm
  have hskip : (Cursor.atColumn k (n + w.toList.length) false (':' :: rest)).skipSpace false false =
      (false, .atColumn k (n + w.toList.length) false (':' :: rest)) :=
    Cursor.skipSpace_spaces (m := 0) hapart false false
  have hcolumn : ∀ i ∈ is.head?, i ≤ n + w.toList.length :=
    fun i hi => Nat.le_trans (his i hi) (Nat.le_add_right n _)
  rw [scanFrom?_word hw hrest his]
  exact scanFrom?_token hskip rfl (refresh?_atColumn (by omega)) hcolumn (read?_colon hrest)
    (hadd _ _)

/-- A key of the mapping that is open at its column. -/
theorem scanFrom?_key_same (hw : IsWord w) (hlength : w.toList.length ≤ 1024)
    (hrest : endsWord rest = true) :
    Token.scanFrom? { tokens := ts, indents := n :: outer }
        (.atColumn k 0 true (List.replicate n ' ' ++ (w.toList ++ ':' :: rest))) =
      Token.scanFrom?
        { tokens := .value :: .scalar .plain w :: .key :: ts
          indents := n :: outer
          keyAllowed := false }
        (.atColumn k (n + w.toList.length + 1) false rest) := by
  refine scanFrom?_key hw hlength hrest ?_ Layout.add?_value_same
  intro i hi
  exact Nat.le_of_eq (Option.some.inj hi).symm

/-- A key further in opens a mapping, and then belongs to it. -/
theorem scanFrom?_key_deeper (hw : IsWord w) (hlength : w.toList.length ≤ 1024)
    (hrest : endsWord rest = true) (houter : ∀ i ∈ outer.head?, i < n) :
    Token.scanFrom? { tokens := ts, indents := outer }
        (.atColumn k 0 true (List.replicate n ' ' ++ (w.toList ++ ':' :: rest))) =
      Token.scanFrom? { tokens := .mapStart :: ts, indents := n :: outer }
        (.atColumn k 0 true (List.replicate n ' ' ++ (w.toList ++ ':' :: rest))) := by
  rw [scanFrom?_key hw hlength hrest (fun i hi => Nat.le_of_lt (houter i hi))
      (Layout.add?_value_deeper houter),
    scanFrom?_key_same hw hlength hrest]

/-- A word behind the colon of a key is its value. It ends with its line, as the next line stands no
further in than the key. -/
theorem scanFrom?_value (hv : IsWord v) (hrest : StartsApart rest) (hm : m ≤ n) (hj : n ≤ j) :
    Token.scanFrom? { tokens := ts, indents := n :: outer, keyAllowed := false }
        (.atColumn k j false (' ' :: (v.toList ++ '\n' :: (List.replicate m ' ' ++ rest)))) =
      Token.scanFrom? { tokens := .scalar .plain v :: ts, indents := n :: outer }
        (.atColumn (k + 1) 0 true (List.replicate m ' ' ++ rest)) := by
  have hskip : (Cursor.atColumn k j false
      (' ' :: (v.toList ++ '\n' :: (List.replicate m ' ' ++ rest)))).skipSpace false false =
        (false, .atColumn k (j + 1) false (v.toList ++ '\n' :: (List.replicate m ' ' ++ rest))) :=
    Cursor.skipSpace_spaces (m := 1) (hv.startsApart _) false false
  have hcolumn : ∀ i ∈ (n :: outer).head?, i ≤ j + 1 := by
    intro i hi
    rw [← Option.some.inj hi]
    omega
  rw [← scanFrom?_spaces hrest]
  exact scanFrom?_token hskip rfl rfl hcolumn (read?_lastWord hv hrest (Nat.lt_succ_of_le hm)) rfl

/-- Where a text ends, the collections that are open are closed: first those that do not reach to
the margin, then the rest. -/
theorem scanFrom?_nil :
    Token.scanFrom? { tokens := ts, indents := is } (.atColumn k 0 true []) =
      some (ts.reverse ++ List.replicate is.length .blockEnd) := by
  have hskip : Layout.skipSpace { tokens := ts, indents := is } (.atColumn k 0 true []) =
      (true, .atColumn k 0 true []) :=
    Cursor.skipSpace_spaces (m := 0) startsApart_nil false true
  have harrive : Layout.arrive? { tokens := ts, indents := is } (.atColumn k 0 true []) =
      some (Layout.closeBlocks { tokens := ts, indents := is } (0 < ·)) := by
    unfold Layout.arrive?
    rw [hskip]
    rfl
  have hcount : (is.takeWhile (0 < ·)).length + (is.dropWhile (0 < ·)).length = is.length := by
    rw [← List.length_append, List.takeWhile_append_dropWhile]
  rw [scanFrom?_eq, harrive, hskip, Option.bind_some]
  show some (((is.dropWhile (0 < ·)).takeWhile (fun _ => true)).map (fun _ => Token.blockEnd) ++
    ((is.takeWhile (0 < ·)).map (fun _ => Token.blockEnd) ++ ts)).reverse = _
  rw [List.map_const', List.map_const', List.takeWhile_eq_self_iff.mpr fun _ _ => rfl,
    List.reverse_append, List.reverse_append, List.reverse_replicate, List.reverse_replicate,
    List.append_assoc, List.replicate_append_replicate, hcount]

end Token

/-! ### Entries and mappings -/

/-- A word that is short enough for a key. -/
def IsKey (w : String) : Prop := IsWord w ∧ w.toList.length ≤ 1024

instance (w : String) : Decidable (IsKey w) := inferInstanceAs (Decidable (_ ∧ _))

/-- A text whose first word, if it has one, stands at a column or further out. -/
def StandsWithin (n : Nat) (text : List Char) : Prop :=
  ∃ m ≤ n, ∃ rest, text = List.replicate m ' ' ++ rest ∧ StartsApart rest

/-- A key at a column whose value follows, before the rest of a text. -/
def keyText (n : Nat) (w : String) (rest : List Char) : List Char :=
  List.replicate n ' ' ++ (w.toList ++ ':' :: rest)

/-- An entry on a line of its own, before the rest of a text. -/
def entryText (n : Nat) (e : String × String) (rest : List Char) : List Char :=
  keyText n e.1 (' ' :: (e.2.toList ++ '\n' :: rest))

/-- The tokens of an entry. -/
def entryTokens (e : String × String) : List Token :=
  [.key, .scalar .plain e.1, .value, .scalar .plain e.2]

/-- An entry as a part of a document. -/
def entryNode (e : String × String) : Yaml × Yaml := (scalar {} .plain e.1, scalar {} .plain e.2)

/-- An entry that can be written on a line: a key and a word. -/
def IsEntry (e : String × String) : Prop := IsKey e.1 ∧ IsWord e.2

instance (e : String × String) : Decidable (IsEntry e) := inferInstanceAs (Decidable (_ ∧ _))

theorem IsKey.standsWithin (hw : IsKey w) (rest : List Char) : StandsWithin n (keyText n w rest) :=
  ⟨n, Nat.le_refl n, _, rfl, hw.1.startsApart _⟩

theorem standsWithin_entries {es : List (String × String)} (hes : ∀ e ∈ es, IsEntry e)
    (hrest : StandsWithin n rest) : StandsWithin n (es.foldr (entryText n) rest) := by
  cases es with
  | nil => exact hrest
  | cons e es => exact (hes e List.mem_cons_self).1.standsWithin _

namespace Token

/-- One entry of a mapping that is open at its column. -/
theorem scanFrom?_entry {e : String × String} (he : IsEntry e) (hrest : StandsWithin n rest) :
    Token.scanFrom? { tokens := ts, indents := n :: outer }
        (.atColumn k 0 true (entryText n e rest)) =
      Token.scanFrom? { tokens := (entryTokens e).reverse ++ ts, indents := n :: outer }
        (.atColumn (k + 1) 0 true rest) := by
  obtain ⟨m, hm, text, rfl, htext⟩ := hrest
  unfold entryText keyText
  rw [scanFrom?_key_same he.1.1 he.1.2 rfl, scanFrom?_value he.2 htext hm (by omega)]
  rfl

/-- The entries of a mapping, one after the other. -/
theorem scanFrom?_entries {es : List (String × String)} (hes : ∀ e ∈ es, IsEntry e)
    (hrest : StandsWithin n rest) :
    Token.scanFrom? { tokens := ts, indents := n :: outer }
        (.atColumn k 0 true (es.foldr (entryText n) rest)) =
      Token.scanFrom? { tokens := (es.flatMap entryTokens).reverse ++ ts, indents := n :: outer }
        (.atColumn (k + es.length) 0 true rest) := by
  -- The scanner keeps the tokens in reverse, so those of an entry come before what was there.
  induction es generalizing k ts with
  | nil => rfl
  | cons e es ih =>
    have hes' : ∀ e ∈ es, IsEntry e := fun e' he' => hes e' (List.mem_cons_of_mem e he')
    rw [List.foldr_cons,
      scanFrom?_entry (hes e List.mem_cons_self) (standsWithin_entries hes' hrest), ih hes',
      List.flatMap_cons, List.reverse_append, List.append_assoc, List.length_cons,
      Nat.add_right_comm, Nat.add_assoc]

/-- A mapping: its first entry opens it. -/
theorem scanFrom?_mapping {es : List (String × String)} (hne : es ≠ []) (hes : ∀ e ∈ es, IsEntry e)
    (hrest : StandsWithin n rest) (houter : ∀ i ∈ outer.head?, i < n) :
    Token.scanFrom? { tokens := ts, indents := outer }
        (.atColumn k 0 true (es.foldr (entryText n) rest)) =
      Token.scanFrom?
        { tokens := (es.flatMap entryTokens).reverse ++ .mapStart :: ts, indents := n :: outer }
        (.atColumn (k + es.length) 0 true rest) := by
  -- Once the first key has opened the mapping it is scanned as any other of its keys.
  rw [← scanFrom?_entries hes hrest]
  obtain ⟨e, es', rfl⟩ := List.exists_cons_of_ne_nil hne
  have he := hes e List.mem_cons_self
  exact scanFrom?_key_deeper he.1.1 he.1.2 rfl houter

/-- A key with nothing behind its colon on its line. -/
theorem scanFrom?_header (hw : IsKey w) :
    Token.scanFrom? { tokens := ts, indents := n :: outer }
        (.atColumn k 0 true (keyText n w ('\n' :: rest))) =
      Token.scanFrom? { tokens := .value :: .scalar .plain w :: .key :: ts, indents := n :: outer }
        (.atColumn (k + 1) 0 true rest) := by
  unfold keyText
  rw [scanFrom?_key_same hw.1 hw.2 rfl, scanFrom?_newline]

end Token

/-! ### Documents with two levels -/

/-- A document with entries, of which the last is a mapping with entries of its own. -/
def documentText (top : List (String × String)) (header : String) (inner : List (String × String)) :
    List Char :=
  top.foldr (entryText 0) (keyText 0 header ('\n' :: inner.foldr (entryText 2) []))

/-- The tokens of such a document. -/
def documentTokens (top : List (String × String)) (header : String)
    (inner : List (String × String)) : List Token :=
  .mapStart :: top.flatMap entryTokens ++ [.key, .scalar .plain header, .value] ++
    .mapStart :: inner.flatMap entryTokens ++ [.blockEnd, .blockEnd]

/-- The document that such a text stands for. -/
def document (top : List (String × String)) (header : String) (inner : List (String × String)) :
    Yaml :=
  map {} (top.map entryNode ++ [(scalar {} .plain header, map {} (inner.map entryNode))])

section Document

variable {top inner : List (String × String)} {header : String}

/-- The tokens of such a text. -/
theorem scanFrom?_documentText (htop : top ≠ []) (htops : ∀ e ∈ top, IsEntry e)
    (hheader : IsKey header) (hinner : inner ≠ []) (hinners : ∀ e ∈ inner, IsEntry e) :
    Token.scanFrom? {} (.atColumn 0 0 true (documentText top header inner)) =
      some (documentTokens top header inner) := by
  -- The header stands at the margin, as the entries before it, and what is behind it further in.
  have hend : StandsWithin 2 [] := ⟨0, Nat.zero_le 2, [], rfl, startsApart_nil⟩
  have hfirst : ∀ i ∈ ([] : List Nat).head?, i < 0 := fun _ hi => by cases hi
  have hsecond : ∀ i ∈ [0].head?, i < 2 := by decide
  unfold documentText
  rw [show ({} : Layout) = { tokens := [], indents := [] } from rfl,
    Token.scanFrom?_mapping htop htops (hheader.standsWithin _) hfirst,
    Token.scanFrom?_header hheader, Token.scanFrom?_mapping hinner hinners hend hsecond,
    Token.scanFrom?_nil]
  simp [documentTokens]

theorem IsWord.all_isPrintable (hw : IsWord w) : w.toList.all isPrintable = true :=
  List.all_eq_true.mpr fun c hc => isPrintable_of_isNameChar (hw.2 c hc)

theorem all_isPrintable_keyText (hw : IsKey w) (hrest : rest.all isPrintable = true) :
    (keyText n w rest).all isPrintable = true := by
  have hspaces : (List.replicate n ' ').all isPrintable = true :=
    List.all_eq_true.mpr (List.forall_mem_replicate.mpr (.inr rfl))
  unfold keyText
  rw [List.all_append, List.all_append, List.all_cons, hspaces, hw.1.all_isPrintable, hrest]
  rfl

theorem all_isPrintable_entries {es : List (String × String)} (hes : ∀ e ∈ es, IsEntry e)
    (hrest : rest.all isPrintable = true) :
    (es.foldr (entryText n) rest).all isPrintable = true := by
  induction es with
  | nil => exact hrest
  | cons e es ih =>
    have he := hes e List.mem_cons_self
    refine all_isPrintable_keyText he.1 ?_
    rw [List.all_cons, List.all_append, List.all_cons, he.2.all_isPrintable,
      ih fun e' he' => hes e' (List.mem_cons_of_mem e he')]
    rfl

/-- The entries of a mapping that is open are added to it. -/
theorem foldlM_step?_entries {done : List (Yaml × Yaml)} {stack : List Frame}
    (es : List (String × String)) :
    (es.flatMap entryTokens).foldlM Builder.step?
        { phase := .after, stack := .key {} done :: stack } =
      some { phase := .after, stack := .key {} ((es.map entryNode).reverse ++ done) :: stack } := by
  induction es generalizing done with
  | nil => rfl
  | cons e es ih =>
    have hentry : (entryTokens e).foldlM Builder.step?
        { phase := .after, stack := .key {} done :: stack } =
          some { phase := .after, stack := .key {} (entryNode e :: done) :: stack } := rfl
    rw [List.flatMap_cons, List.foldlM_append, hentry]
    show (es.flatMap entryTokens).foldlM Builder.step?
      { phase := .after, stack := .key {} (entryNode e :: done) :: stack } = _
    rw [ih, List.map_cons, List.reverse_cons, List.append_assoc]
    rfl

/-- A mapping, from the token that starts it to its last entry. -/
theorem foldlM_step?_mapping {b : Builder} {stack : List Frame}
    (hstart : b.step? .mapStart = some { phase := .after, stack := .key {} [] :: stack })
    (es : List (String × String)) :
    (Token.mapStart :: es.flatMap entryTokens).foldlM Builder.step? b =
      some { phase := .after, stack := .key {} (es.map entryNode).reverse :: stack } := by
  rw [List.foldlM_cons, hstart]
  show (es.flatMap entryTokens).foldlM Builder.step?
    { phase := .after, stack := .key {} [] :: stack } = _
  rw [foldlM_step?_entries, List.append_nil]

/-- The tokens of such a text make the document that it stands for. -/
theorem foldlM_step?_document (top : List (String × String)) (header : String)
    (inner : List (String × String)) :
    (documentTokens top header inner).foldlM Builder.step? {} =
      some { phase := .finished (document top header inner) } := by
  let tops := (top.map entryNode).reverse
  let inners := (inner.map entryNode).reverse
  have htop : (Token.mapStart :: top.flatMap entryTokens).foldlM Builder.step? {} =
      some { phase := .after, stack := [.key {} tops] } :=
    foldlM_step?_mapping rfl top
  have hheader : [Token.key, .scalar .plain header, .value].foldlM Builder.step?
      { phase := .after, stack := [.key {} tops] } =
        some { phase := .node {}, stack := [.value {} tops (scalar {} .plain header)] } := rfl
  have hinner : (Token.mapStart :: inner.flatMap entryTokens).foldlM Builder.step?
      { phase := .node {}, stack := [.value {} tops (scalar {} .plain header)] } =
        some
          { phase := .after, stack := [.key {} inners, .value {} tops (scalar {} .plain header)] } :=
    foldlM_step?_mapping rfl inner
  -- The first end completes the inner mapping, the second the document.
  have hends : [Token.blockEnd, .blockEnd].foldlM Builder.step?
      { phase := .after, stack := [.key {} inners, .value {} tops (scalar {} .plain header)] } =
        some { phase := .finished (map {}
          ((scalar {} .plain header, map {} inners.reverse) :: tops).reverse) } := rfl
  have hdocument : map {} ((scalar {} .plain header, map {} inners.reverse) :: tops).reverse =
      document top header inner := by
    simp [tops, inners, document]
  unfold documentTokens
  rw [List.foldlM_append, List.foldlM_append, List.foldlM_append, htop, Option.bind_eq_bind,
    Option.bind_some, hheader, Option.bind_some, hinner, Option.bind_some, hends, hdocument]

/-- Such a text is read as the document that it stands for. -/
theorem parse?_documentText (htop : top ≠ []) (htops : ∀ e ∈ top, IsEntry e)
    (hheader : IsKey header) (hinner : inner ≠ []) (hinners : ∀ e ∈ inner, IsEntry e) :
    Yaml.parse? (.ofList (documentText top header inner)) = some (document top header inner) := by
  have hprintable : (documentText top header inner).all isPrintable = true := by
    refine all_isPrintable_entries htops (all_isPrintable_keyText hheader ?_)
    exact all_isPrintable_entries hinners rfl
  have hscan := scanFrom?_documentText htop htops hheader hinner hinners
  unfold parse?
  rw [String.toList_ofList, Token.scan?, if_pos hprintable]
  show (Token.scanFrom? {} (.atColumn 0 0 true (documentText top header inner))).bind _ = _
  rw [hscan, Option.bind_some]
  show (List.foldlM Builder.step? {} _).bind _ = _
  rw [foldlM_step?_document]
  rfl

end Document

end AlarmDischarge.Yaml
