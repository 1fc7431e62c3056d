import Mathlib.Data.List.TakeWhile

/-!
# `AlarmDischarge.Proofs.Phrase`: bracketed words can be read back

Terms and formulas are written as words with a blank between two of them. A word may be followed by a
bracket, in which it goes on in the same way. The text alone shows where a word ends and which bracket
closes which, whatever the words mean:

* `Phrase`: words in a row, each with or without a bracket behind it;
* `eq_of_text_eq`: the text of a phrase determines the phrase, if no word has a blank or a bracket in
  it;
* `join`: two phrases with a word between them, as operators are written. If the first is a single
  item, the whole determines its three parts (`join_inj_of_isItem`).
-/

set_option autoImplicit false

namespace AlarmDischarge

/-- Words in a row. A word may be followed by a phrase in brackets; the word before a bracket may be
empty. -/
inductive Phrase where
  | word (w : String)
  | group (w : String) (inside : Phrase)
  | wordThen (w : String) (rest : Phrase)
  | groupThen (w : String) (inside rest : Phrase)

namespace Phrase

/-- A phrase in written form. -/
def text : Phrase → String
  | word w => w
  | group w inside => w ++ "(" ++ inside.text ++ ")"
  | wordThen w rest => w ++ " " ++ rest.text
  | groupThen w inside rest => w ++ "(" ++ inside.text ++ ")" ++ " " ++ rest.text

/-- The characters that end a word. -/
def isDelimiter (c : Char) : Bool := c == ' ' || c == '(' || c == ')'

/-- A text without blanks and brackets. -/
def IsWord (w : String) : Prop := ∀ c ∈ w.toList, isDelimiter c = false

-- The instance is named: a search may find the one that goes through all characters there are.
instance (w : String) : Decidable (IsWord w) := List.decidableBAll _ _

/-- A phrase whose words have no blanks and brackets in them. -/
def Plain : Phrase → Prop
  | word w => IsWord w
  | group w inside => IsWord w ∧ inside.Plain
  | wordThen w rest => IsWord w ∧ rest.Plain
  | groupThen w inside rest => IsWord w ∧ inside.Plain ∧ rest.Plain

/-! ### Reading a phrase back -/

/-- A word goes on up to the first delimiter. -/
theorem takeWhile_word {w : String} {c : Char} (hw : IsWord w) (hc : isDelimiter c = true)
    (cs : List Char) :
    (w.toList ++ c :: cs).takeWhile (fun d => !isDelimiter d) = w.toList := by
  rw [List.takeWhile_append_of_pos fun d hd => by rw [hw d hd]; rfl,
    List.takeWhile_cons_of_neg (by rw [hc]; decide), List.append_nil]

/-- So a text begins with one word, and the rest of it is what is left. -/
theorem word_append_inj {w v : String} {cs ds : List Char} {c d : Char} (hw : IsWord w)
    (hv : IsWord v) (hc : isDelimiter c = true) (hd : isDelimiter d = true)
    (h : w.toList ++ c :: cs = v.toList ++ d :: ds) : w = v ∧ c :: cs = d :: ds := by
  have hwv : w.toList = v.toList := by
    rw [← takeWhile_word hw hc cs, h, takeWhile_word hv hd ds]
  rw [hwv] at h
  exact ⟨String.toList_inj.mp hwv, List.append_cancel_left h⟩

/-- The word at the front of a phrase. -/
def front : Phrase → String
  | word w => w
  | group w _ => w
  | wordThen w _ => w
  | groupThen w _ _ => w

/-- What stands behind the word at the front of a phrase that a bracket closes. -/
def behind (cs : List Char) : Phrase → List Char
  | word _ => ')' :: cs
  | group _ inside => '(' :: (inside.text.toList ++ ')' :: ')' :: cs)
  | wordThen _ rest => ' ' :: (rest.text.toList ++ ')' :: cs)
  | groupThen _ inside rest =>
    '(' :: (inside.text.toList ++ ')' :: ' ' :: (rest.text.toList ++ ')' :: cs))

theorem toList_text_append (p : Phrase) (cs : List Char) :
    p.text.toList ++ ')' :: cs = p.front.toList ++ p.behind cs := by
  cases p with
  | word w => rfl
  | group w inside => simp [text, front, behind]
  | wordThen w rest => simp [text, front, behind]
  | groupThen w inside rest => simp [text, front, behind]

theorem exists_behind_eq_cons (p : Phrase) (cs : List Char) :
    ∃ c ds, p.behind cs = c :: ds ∧ isDelimiter c = true := by
  cases p with
  | word w => exact ⟨_, _, rfl, rfl⟩
  | group w inside => exact ⟨_, _, rfl, rfl⟩
  | wordThen w rest => exact ⟨_, _, rfl, rfl⟩
  | groupThen w inside rest => exact ⟨_, _, rfl, rfl⟩

theorem Plain.isWord_front {p : Phrase} (h : p.Plain) : IsWord p.front := by
  cases p with
  | word w => exact h
  | group w inside => exact h.1
  | wordThen w rest => exact h.1
  | groupThen w inside rest => exact h.1

/-- A text that begins with a phrase and the bracket that closes it begins with its first word. -/
theorem front_eq_of_text_append_eq {p q : Phrase} {cs ds : List Char} (hp : p.Plain) (hq : q.Plain)
    (h : p.text.toList ++ ')' :: cs = q.text.toList ++ ')' :: ds) :
    p.front = q.front ∧ p.behind cs = q.behind ds := by
  obtain ⟨c, cs', hcs, hc⟩ := exists_behind_eq_cons p cs
  obtain ⟨d, ds', hds, hd⟩ := exists_behind_eq_cons q ds
  rw [toList_text_append, toList_text_append, hcs, hds] at h
  rw [hcs, hds]
  exact word_append_inj hp.isWord_front hq.isWord_front hc hd h

/-- A text begins with at most one phrase and the bracket that closes it. The induction is on the
first phrase: the character behind its first word tells the four forms apart, and a bracket that was
opened is read to its end before what follows is looked at. -/
theorem eq_of_text_append_eq {p q : Phrase} {cs ds : List Char} (hp : p.Plain) (hq : q.Plain)
    (h : p.text.toList ++ ')' :: cs = q.text.toList ++ ')' :: ds) : p = q ∧ cs = ds := by
  induction p generalizing q cs ds with
  | word w =>
    obtain ⟨hfront, hbehind⟩ := front_eq_of_text_append_eq hp hq h
    cases q with
    | word v => exact ⟨congrArg word hfront, (List.cons.inj hbehind).2⟩
    | group v inside' => simp [behind] at hbehind
    | wordThen v rest' => simp [behind] at hbehind
    | groupThen v inside' rest' => simp [behind] at hbehind
  | group w inside ih =>
    obtain ⟨hfront, hbehind⟩ := front_eq_of_text_append_eq hp hq h
    cases q with
    | word v => simp [behind] at hbehind
    | group v inside' =>
      obtain ⟨hinside, hclose⟩ := ih hp.2 hq.2 (List.cons.inj hbehind).2
      exact ⟨congr (congrArg group hfront) hinside, (List.cons.inj hclose).2⟩
    | wordThen v rest' => simp [behind] at hbehind
    | groupThen v inside' rest' =>
      -- The brackets close together, and only one of the two goes on behind them.
      obtain ⟨-, hclose⟩ := ih hp.2 hq.2.1 (List.cons.inj hbehind).2
      simp at hclose
  | wordThen w rest ih =>
    obtain ⟨hfront, hbehind⟩ := front_eq_of_text_append_eq hp hq h
    cases q with
    | word v => simp [behind] at hbehind
    | group v inside' => simp [behind] at hbehind
    | wordThen v rest' =>
      obtain ⟨hrest, hcs⟩ := ih hp.2 hq.2 (List.cons.inj hbehind).2
      exact ⟨congr (congrArg wordThen hfront) hrest, hcs⟩
    | groupThen v inside' rest' => simp [behind] at hbehind
  | groupThen w inside rest ihi ihr =>
    obtain ⟨hfront, hbehind⟩ := front_eq_of_text_append_eq hp hq h
    cases q with
    | word v => simp [behind] at hbehind
    | group v inside' =>
      obtain ⟨-, hclose⟩ := ihi hp.2.1 hq.2 (List.cons.inj hbehind).2
      simp at hclose
    | wordThen v rest' => simp [behind] at hbehind
    | groupThen v inside' rest' =>
      obtain ⟨hinside, hclose⟩ := ihi hp.2.1 hq.2.1 (List.cons.inj hbehind).2
      obtain ⟨hrest, hcs⟩ := ihr hp.2.2 hq.2.2 (List.cons.inj hclose).2
      exact ⟨congr (congr (congrArg groupThen hfront) hinside) hrest, hcs⟩

/-- The text of a phrase determines the phrase. -/
theorem eq_of_text_eq {p q : Phrase} (hp : p.Plain) (hq : q.Plain) (h : p.text = q.text) :
    p = q := by
  have hclosed : p.text.toList ++ [')'] = q.text.toList ++ [')'] := by rw [h]
  exact (eq_of_text_append_eq hp hq hclosed).1

/-! ### Phrases with a word between them -/

/-- A phrase, a word and a phrase, in this order. -/
def join (p : Phrase) (op : String) (q : Phrase) : Phrase :=
  match p with
  | word w => wordThen w (wordThen op q)
  | group w inside => groupThen w inside (wordThen op q)
  | wordThen w rest => wordThen w (rest.join op q)
  | groupThen w inside rest => groupThen w inside (rest.join op q)

variable {p p' q q' : Phrase} {op op' : String}

theorem text_join : (p.join op q).text = p.text ++ " " ++ op ++ " " ++ q.text := by
  induction p with
  | word w => simp [join, text, String.append_assoc]
  | group w inside _ => simp [join, text, String.append_assoc]
  | wordThen w rest ih => simp [join, text, ih, String.append_assoc]
  | groupThen w inside rest _ ih => simp [join, text, ih, String.append_assoc]

theorem Plain.join (hp : p.Plain) (hop : IsWord op) (hq : q.Plain) : (p.join op q).Plain := by
  induction p with
  | word w => exact ⟨hp, hop, hq⟩
  | group w inside _ => exact ⟨hp.1, hp.2, hop, hq⟩
  | wordThen w rest ih => exact ⟨hp.1, ih hp.2⟩
  | groupThen w inside rest _ ih => exact ⟨hp.1, hp.2.1, ih hp.2.2⟩

/-- Joining goes from left to right or from right to left alike. -/
theorem join_join {r : Phrase} : (p.join op q).join op' r = p.join op (q.join op' r) := by
  induction p with
  | word w => rfl
  | group w inside _ => rfl
  | wordThen w rest ih => exact congrArg (wordThen w) ih
  | groupThen w inside rest _ ih => exact congrArg (groupThen w inside) ih

/-- A phrase of one word, with or without a bracket behind it. -/
inductive IsItem : Phrase → Prop where
  | word (w : String) : IsItem (word w)
  | group (w : String) (inside : Phrase) : IsItem (group w inside)

@[simp]
theorem word_ne_join {w : String} : word w ≠ p.join op q := by
  cases p <;> simp [join]

@[simp]
theorem group_ne_join {w : String} {inside : Phrase} : group w inside ≠ p.join op q := by
  cases p <;> simp [join]

@[simp]
theorem join_ne_word {w : String} : p.join op q ≠ word w := word_ne_join.symm

@[simp]
theorem join_ne_group {w : String} {inside : Phrase} : p.join op q ≠ group w inside :=
  group_ne_join.symm

/-- An item at the front is told from the word and the phrase behind it. -/
theorem join_inj_of_isItem (hp : p.IsItem) (hp' : p'.IsItem)
    (h : p.join op q = p'.join op' q') : p = p' ∧ op = op' ∧ q = q' := by
  cases hp with
  | word w =>
    cases hp' with
    | word w' =>
      cases h
      exact ⟨rfl, rfl, rfl⟩
    | group w' inside' => cases h
  | group w inside =>
    cases hp' with
    | word w' => cases h
    | group w' inside' =>
      cases h
      exact ⟨rfl, rfl, rfl⟩

end Phrase

end AlarmDischarge
