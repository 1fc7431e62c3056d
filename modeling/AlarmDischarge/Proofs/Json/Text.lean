import AlarmDischarge.Json.Reader
import AlarmDischarge.Proofs.Json.Token

/-!
# `AlarmDischarge.Proofs.Json.Text`: reading back what was printed

A JSON value is printed and read again by way of its tokens. Scanning the printed text finds the
tokens of the value, whatever the line breaks and indentation between them are, and the reader builds
the value from them:

* `Regular`: the values that the library exchanges, which have 64-bit integers and no two fields of
  one name;
* `scansApart_prettyAt`: the text of a value stands for its tokens;
* `reads_of_regular`: the reader turns the tokens of a value into the value, inside any containers
  that are still open;
* `parse?_pretty`: so a value is read back from its text.
-/

set_option autoImplicit false

namespace AlarmDischarge.Json

/-- The values that their text determines. Of a number with a fraction only the text is kept, integers
beyond 64 bits are never written, and of two fields with one name the reader keeps only the later. -/
inductive Regular : Json → Prop where
  | null : Regular null
  | bool (b : Bool) : Regular (bool b)
  | int {n : Int} (size : n.natAbs < UInt64.size) : Regular (int n)
  | str (s : String) : Regular (str s)
  | arr {items : List Json} (items_regular : ∀ j ∈ items, Regular j) : Regular (arr items)
  | obj {fields : List (String × Json)} (names_nodup : (fields.map Prod.fst).Nodup)
      (fields_regular : ∀ f ∈ fields, Regular f.2) : Regular (obj fields)

/-! ### The tokens of a value -/

mutual

/-- The tokens that a value is written with. -/
def tokens : Json → List Token
  | null => [.null]
  | bool b => [.bool b]
  | int n => [.int n]
  | real literal => [.real literal]
  | str s => [.str s]
  | arr items => .openArray :: ([Token.comma].intercalate (itemTokens items) ++ [.closeArray])
  | obj fields => .openObject :: ([Token.comma].intercalate (fieldTokens fields) ++ [.closeObject])

/-- The tokens of the items of an array, each on its own. -/
def itemTokens : List Json → List (List Token)
  | [] => []
  | j :: rest => j.tokens :: itemTokens rest

/-- The tokens of the fields of an object, each on its own. -/
def fieldTokens : List (String × Json) → List (List Token)
  | [] => []
  | (name, j) :: rest => (.str name :: .colon :: j.tokens) :: fieldTokens rest

end

theorem itemTokens_eq_map (items : List Json) : itemTokens items = items.map tokens := by
  induction items with
  | nil => rfl
  | cons j rest ih => rw [itemTokens, ih, List.map_cons]

theorem fieldTokens_eq_map (fields : List (String × Json)) :
    fieldTokens fields = fields.map fun f => .str f.1 :: .colon :: f.2.tokens := by
  induction fields with
  | nil => rfl
  | cons f rest ih => rw [fieldTokens, ih, List.map_cons]

theorem prettyItems_eq_map (level : Nat) (items : List Json) :
    prettyItems level items = items.map (prettyAt level) := by
  induction items with
  | nil => rfl
  | cons j rest ih => rw [prettyItems, ih, List.map_cons]

theorem prettyFields_eq_map (level : Nat) (fields : List (String × Json)) :
    prettyFields level fields = fields.map fun f => quote f.1 ++ ": " ++ prettyAt level f.2 := by
  induction fields with
  | nil => rfl
  | cons f rest ih => rw [prettyFields, ih, List.map_cons]

/-! ### From text to tokens -/

theorem toList_pushn (n : Nat) : ("".pushn ' ' n).toList = List.replicate n ' ' := by
  rw [String.pushn_eq_repeat_push]
  induction n with
  | zero => rfl
  | succ n ih =>
    rw [Nat.repeat, String.toList_push, ih, List.replicate_succ']

theorem toList_newline (level : Nat) :
    (newline level).toList = '\n' :: List.replicate (2 * level) ' ' := by
  rw [newline, String.toList_append, toList_pushn]
  rfl

/-- A line break and its indentation stand for nothing. -/
theorem scans_newline (level : Nat) : Scans ('\n' :: List.replicate (2 * level) ' ') [] := by
  have hindent : ∀ n, Scans (List.replicate n ' ') [] := by
    intro n
    induction n with
    | zero =>
      intro rest
      simp
    | succ n ih => exact (scans_blank (c := ' ') rfl).append ih
  exact (scans_blank (c := '\n') rfl).append (hindent _)

section

variable {α : Type} {line : α → String} {toks : α → List Token} {xs : List α}

/-- Texts that are divided by a comma and a line break stand for their tokens, divided by commas. The
comma keeps a number apart from what follows. -/
theorem scansApart_intercalate (level : Nat) (hxs : xs ≠ [])
    (h : ∀ x ∈ xs, ScansApart (line x).toList (toks x)) :
    ScansApart (("," ++ newline level).intercalate (xs.map line)).toList
      ([Token.comma].intercalate (xs.map toks)) := by
  have hsep : ("," ++ newline level).toList = ',' :: '\n' :: List.replicate (2 * level) ' ' := by
    rw [String.toList_append, toList_newline]
    rfl
  have hcomma : Scans (',' :: '\n' :: List.replicate (2 * level) ' ') [.comma] :=
    (scans_mark (by decide)).append (scans_newline level)
  rw [String.toList_intercalate, List.map_map, hsep]
  induction xs with
  | nil => exact absurd rfl hxs
  | cons x rest ih =>
    have hx := h x List.mem_cons_self
    cases rest with
    | nil => simpa using hx
    | cons y rest =>
      have hrest := ih (by simp) fun z hz => h z (List.mem_cons_of_mem _ hz)
      simp only [List.map_cons, List.intercalate_cons_cons] at hrest ⊢
      exact (hx.append (by decide) hcomma).append_apart hrest

/-- A container stands for the tokens of its lines between those of its brackets. -/
theorem scans_block {left right : String} {opening closing : Token} (level : Nat)
    (hleft : Scans left.toList [opening]) (hright : Scans right.toList [closing])
    (h : ∀ x ∈ xs, ScansApart (line x).toList (toks x)) :
    Scans (block left right level (xs.map line)).toList
      (opening :: ([Token.comma].intercalate (xs.map toks) ++ [closing])) := by
  cases xs with
  | nil =>
    show Scans (left ++ right).toList ([opening] ++ [closing])
    rw [String.toList_append]
    exact hleft.append hright
  | cons x rest =>
    have hlines := scansApart_intercalate (level + 1) (by simp) h
    have hopen : Scans (left.toList ++ '\n' :: List.replicate (2 * (level + 1)) ' ') [opening] :=
      hleft.append (scans_newline _)
    have hclose : Scans ('\n' :: (List.replicate (2 * level) ' ' ++ right.toList)) [closing] :=
      (scans_newline level).append hright
    have hblock := (hopen.append_apart hlines).append (by decide) hclose
    rw [block, if_neg (by simp)]
    simpa [String.toList_append, toList_newline] using hblock

end

/-- The text of a value stands for its tokens, at any level of indentation. -/
theorem scansApart_prettyAt {j : Json} (h : j.Regular) (level : Nat) :
    ScansApart (prettyAt level j).toList j.tokens := by
  induction h generalizing level with
  | null => exact scans_null.apart
  | bool b => exact (scans_bool b).apart
  | int size => exact scansApart_int size
  | str s => exact (scans_quote s).apart
  | arr _ ih =>
    have hopen : Scans "[".toList [.openArray] := scans_mark (by decide)
    have hclose : Scans "]".toList [.closeArray] := scans_mark (by decide)
    rw [prettyAt, tokens, prettyItems_eq_map, itemTokens_eq_map]
    exact (scans_block level hopen hclose fun j hj => ih j hj (level + 1)).apart
  | obj _ _ ih =>
    have hopen : Scans "\x7b".toList [.openObject] := scans_mark (by decide)
    have hclose : Scans "\x7d".toList [.closeObject] := scans_mark (by decide)
    have hcolon : Scans ": ".toList [.colon] :=
      (scans_mark (c := ':') (by decide)).append (scans_blank (c := ' ') rfl)
    rw [prettyAt, tokens, prettyFields_eq_map, fieldTokens_eq_map]
    refine (scans_block level hopen hclose fun f hf => ?_).apart
    rw [String.toList_append, String.toList_append]
    exact ((scans_quote f.1).append hcolon).append_apart (ih f hf (level + 1))

/-! ### From tokens to the value -/

/-- Reading the tokens of a value comes to the value, and goes on with what is open. -/
def Reads (j : Json) : Prop :=
  ∀ stack ts, readValue stack (j.tokens ++ ts) = resume j stack ts

/-- The first token of a value is not the bracket that ends an array. -/
theorem exists_tokens_eq_cons (j : Json) : ∃ t ts, j.tokens = t :: ts ∧ t ≠ .closeArray := by
  cases j with
  | null => exact ⟨_, _, rfl, nofun⟩
  | bool b => exact ⟨_, _, rfl, nofun⟩
  | int n => exact ⟨_, _, rfl, nofun⟩
  | real literal => exact ⟨_, _, rfl, nofun⟩
  | str s => exact ⟨_, _, rfl, nofun⟩
  | arr items => exact ⟨_, _, rfl, nofun⟩
  | obj fields => exact ⟨_, _, rfl, nofun⟩

/-- Reading the rest of an array, from an item on. The items before it wait, the latest first. -/
theorem readValue_items {j : Json} {items : List Json} (hj : Reads j)
    (hitems : ∀ i ∈ items, Reads i) (done : List Json) (stack : List Frame) (ts : List Token) :
    readValue (.items done :: stack)
        ([Token.comma].intercalate (j.tokens :: items.map tokens) ++ .closeArray :: ts) =
      resume (.arr (done.reverse ++ j :: items)) stack ts := by
  induction items generalizing j done with
  | nil =>
    rw [List.map_nil, List.intercalate_singleton, hj, resume, List.reverse_cons]
  | cons i items ih =>
    have hrest := ih (hitems i List.mem_cons_self) fun k hk => hitems k (List.mem_cons_of_mem _ hk)
    rw [List.map_cons, List.intercalate_cons_cons, List.append_assoc, List.append_assoc, hj,
      List.singleton_append, resume, hrest, List.reverse_cons, List.append_assoc,
      List.singleton_append]

/-- A field with a new name is put before the others. -/
theorem putField_of_not_mem {fields : List (String × Json)} {name : String}
    (h : name ∉ fields.map Prod.fst) (value : Json) :
    putField fields name value = (name, value) :: fields := by
  unfold putField
  rw [List.filter_eq_self.mpr]
  intro f hf
  rw [bne_iff_ne]
  rintro rfl
  exact h (List.mem_map_of_mem hf)

theorem not_mem_of_nodup {done rest : List (String × Json)} {name : String} {j : Json}
    (h : ((done.reverse ++ (name, j) :: rest).map Prod.fst).Nodup) : name ∉ done.map Prod.fst := by
  rw [List.map_append, List.map_reverse, List.map_cons, List.nodup_append] at h
  intro hmem
  exact h.2.2 name (List.mem_reverse.mpr hmem) name List.mem_cons_self rfl

/-- Reading the rest of an object, from the value of a field on. The fields before it wait, the latest
first, and no name occurs twice. -/
theorem readValue_fields {name : String} {j : Json} {fields : List (String × Json)} (hj : Reads j)
    (hfields : ∀ f ∈ fields, Reads f.2) (done : List (String × Json))
    (hnames : ((done.reverse ++ (name, j) :: fields).map Prod.fst).Nodup)
    (stack : List Frame) (ts : List Token) :
    readValue (.fields done name :: stack)
        ([Token.comma].intercalate (j.tokens ::
          fields.map fun f => .str f.1 :: .colon :: f.2.tokens) ++ .closeObject :: ts) =
      resume (.obj (done.reverse ++ (name, j) :: fields)) stack ts := by
  induction fields generalizing name j done with
  | nil =>
    rw [List.map_nil, List.intercalate_singleton, hj, resume,
      putField_of_not_mem (not_mem_of_nodup hnames), List.reverse_cons]
  | cons f fields ih =>
    have hassoc : ((name, j) :: done).reverse ++ f :: fields =
        done.reverse ++ (name, j) :: f :: fields := by
      rw [List.reverse_cons, List.append_assoc, List.singleton_append]
    have hrest := ih (hfields f List.mem_cons_self)
      (fun k hk => hfields k (List.mem_cons_of_mem _ hk)) ((name, j) :: done)
      (by rw [hassoc]; exact hnames)
    rw [List.map_cons, List.intercalate_cons_cons, List.append_assoc, List.append_assoc, hj,
      List.intercalate_cons_cons_left, List.intercalate_cons_cons_left, List.singleton_append,
      List.cons_append, List.cons_append, resume, putField_of_not_mem (not_mem_of_nodup hnames),
      hrest, hassoc]

/-- The reader turns the tokens of a value into the value. -/
theorem reads_of_regular {j : Json} (h : j.Regular) : Reads j := by
  induction h with
  | null => exact fun _ _ => rfl
  | bool b => exact fun _ _ => rfl
  | int size => exact fun _ _ => rfl
  | str s => exact fun _ _ => rfl
  | @arr items _ ih =>
    intro stack ts
    rw [tokens, itemTokens_eq_map]
    cases items with
    | nil => rfl
    | cons j items =>
      have hj := ih j List.mem_cons_self
      have hitems : ∀ i ∈ items, Reads i := fun i hi => ih i (List.mem_cons_of_mem _ hi)
      have hread := readValue_items hj hitems [] stack ts
      -- An array with items is not taken for an empty one.
      obtain ⟨t, us, htokens, hne⟩ := exists_tokens_eq_cons j
      rw [htokens, List.intercalate_cons_cons_left] at hread
      rw [List.map_cons, htokens, List.intercalate_cons_cons_left, List.cons_append,
        List.append_assoc, List.cons_append, readValue]
      · exact hread
      · intro rest hrest
        exact hne (List.cons.inj hrest).1
  | @obj fields hnames _ ih =>
    intro stack ts
    rw [tokens, fieldTokens_eq_map]
    cases fields with
    | nil => rfl
    | cons f fields =>
      have hf := ih f List.mem_cons_self
      have hfields : ∀ k ∈ fields, Reads k.2 := fun k hk => ih k (List.mem_cons_of_mem _ hk)
      have hread := readValue_fields hf hfields [] hnames stack ts
      rw [List.map_cons, List.intercalate_cons_cons_left, List.intercalate_cons_cons_left]
      rw [List.cons_append, List.append_assoc, List.cons_append, List.cons_append]
      exact hread

/-- A value is read back from its text. -/
theorem parse?_pretty {j : Json} (h : j.Regular) : parse? j.pretty = some j := by
  have hscan := scansApart_prettyAt h 0 [] (by simp [Ends])
  have hread := reads_of_regular h [] []
  rw [List.append_nil] at hscan hread
  rw [parse?, pretty, hscan, Token.scan?]
  show readValue [] (j.tokens ++ []) = _
  rw [List.append_nil, hread, resume]

end AlarmDischarge.Json
