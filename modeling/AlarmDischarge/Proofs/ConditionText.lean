import AlarmDischarge.Proofs.Allocation
import AlarmDischarge.Proofs.Json.Token
import AlarmDischarge.Proofs.Names
import AlarmDischarge.Proofs.Phrase
import AlarmDischarge.Proofs.Validity

/-!
# `AlarmDischarge.Proofs.ConditionText`: what the text of a condition tells

A verdict shows its condition as a text (`vc`). This module proves that nothing is lost by that, as
long as variables have the names that conversion makes of identifiers:

* `Term.phrase`, `Formula.phrase`: terms and formulas as phrases, with the same text;
* `Term.eq_of_text_eq`, `Formula.eq_of_text_eq`: the text of a term or a formula determines it. The
  reading back of brackets and words is done in `Phrase`; here it remains to tell a number from a
  name, and to find the connective between two formulas that may have operators of their own;
* `Verifier.obligation_and_facts_of_condition_eq`: a condition can be taken apart again;
* `Verifier.condition_text_tells_obligation_and_facts`: so the text of a condition determines the
  obligation and the facts.
-/

set_option autoImplicit false

namespace AlarmDischarge

open Std

/-! ### Names and numbers as words -/

theorem isDelimiter_of_isIdentifierPart {c : Char} (h : isIdentifierPart c = true) :
    Phrase.isDelimiter c = false := by
  rw [Bool.eq_false_iff]
  intro hc
  simp only [Phrase.isDelimiter, Bool.or_eq_true, beq_iff_eq] at hc
  rcases hc with (rfl | rfl) | rfl
  all_goals exact absurd h (by decide)

theorem IsVariableName.isWord {x : String} (h : IsVariableName x) : Phrase.IsWord x := by
  intro c hc
  rcases h.of_mem_toList hc with hpart | rfl | rfl
  · exact isDelimiter_of_isIdentifierPart hpart
  · rfl
  · rfl

/-- A number is written with digits, and a minus sign if it is negative. -/
theorem isDigit_or_eq_minus_of_mem_repr {n : Int} {c : Char} (hc : c ∈ n.repr.toList) :
    c.isDigit = true ∨ c = '-' := by
  cases n with
  | ofNat n =>
    have hlist : (Int.ofNat n).repr.toList = Nat.toDigits 10 n := Nat.toList_repr
    rw [hlist] at hc
    exact .inl (Text.isDigit_toDigits n c hc)
  | negSucc n =>
    have hlist : (Int.negSucc n).repr.toList = '-' :: Nat.toDigits 10 (n + 1) := by
      show ("-" ++ Nat.repr (n + 1)).toList = _
      rw [String.toList_append, Nat.toList_repr]
      rfl
    rw [hlist] at hc
    rcases List.mem_cons.mp hc with rfl | hc
    · exact .inr rfl
    · exact .inl (Text.isDigit_toDigits _ c hc)

theorem isWord_repr (n : Int) : Phrase.IsWord n.repr := by
  intro c hc
  rcases isDigit_or_eq_minus_of_mem_repr hc with hdigit | rfl
  · refine isDelimiter_of_isIdentifierPart ?_
    rw [isIdentifierPart, hdigit, Bool.or_true]
  · rfl

/-- A 64-bit number is known from its decimal form. -/
theorem int64_eq_of_repr_eq {m n : Int64} (h : m.toInt.repr = n.toInt.repr) : m = n := by
  have hsize : ∀ k : Int64, k.toInt.natAbs < UInt64.size := by
    intro k
    have hlow := k.le_toInt
    have hhigh := k.toInt_lt
    have hbig : UInt64.size = 18446744073709551616 := rfl
    omega
  have hm := Json.readNumber?_repr (hsize m)
  rw [h, Json.readNumber?_repr (hsize n)] at hm
  exact (Int64.toInt_inj.mp (Json.Token.int.inj (Option.some.inj hm))).symm

/-- No number is the name of a variable: an identifier begins with neither a digit nor a sign. -/
theorem IsVariableName.ne_repr {x : String} (h : IsVariableName x) (n : Int) : x ≠ n.repr := by
  rintro rfl
  obtain ⟨c, cs, hlist, hc⟩ := h.exists_toList
  have hmem : c ∈ n.repr.toList := by
    rw [hlist]
    exact List.mem_cons_self
  rcases isDigit_or_eq_minus_of_mem_repr hmem with hdigit | rfl
  · rw [not_isIdentifierStart_of_isDigit hdigit] at hc
    cases hc
  · exact absurd hc (by decide)

/-! ### Terms -/

namespace Term

/-- A term as a phrase: arithmetic stands in brackets with no word before them. -/
def phrase : Term → Phrase
  | var name => .word name
  | int value => .word value.toInt.repr
  | mul lhs rhs => .group "" (lhs.phrase.join "*" rhs.phrase)
  | add lhs rhs => .group "" (lhs.phrase.join "+" rhs.phrase)
  | sub lhs rhs => .group "" (lhs.phrase.join "-" rhs.phrase)
  | arraySize array => .group "arrsize" array.phrase
  | sizeOf object => .group "sizeof" object.phrase

theorem text_phrase (t : Term) : t.phrase.text = t.text := by
  induction t with
  | var name => rfl
  | int value => rfl
  | mul lhs rhs ihl ihr =>
    apply String.toList_inj.mp
    simp [phrase, text, Phrase.text, Phrase.text_join, ihl, ihr]
  | add lhs rhs ihl ihr =>
    apply String.toList_inj.mp
    simp [phrase, text, Phrase.text, Phrase.text_join, ihl, ihr]
  | sub lhs rhs ihl ihr =>
    apply String.toList_inj.mp
    simp [phrase, text, Phrase.text, Phrase.text_join, ihl, ihr]
  | arraySize array ih => simp [phrase, text, Phrase.text, ih]
  | sizeOf object ih => simp [phrase, text, Phrase.text, ih]

theorem isItem_phrase (t : Term) : t.phrase.IsItem := by
  cases t with
  | var name => exact .word _
  | int value => exact .word _
  | mul lhs rhs => exact .group _ _
  | add lhs rhs => exact .group _ _
  | sub lhs rhs => exact .group _ _
  | arraySize array => exact .group _ _
  | sizeOf object => exact .group _ _

theorem plain_phrase {t : Term} (h : t.WellNamed) : t.phrase.Plain := by
  induction t with
  | var name => exact (wellNamed_var.mp h).isWord
  | int value => exact isWord_repr _
  | mul lhs rhs ihl ihr =>
    obtain ⟨hl, hr⟩ := List.forall_mem_append.mp h
    exact ⟨by decide, (ihl hl).join (by decide) (ihr hr)⟩
  | add lhs rhs ihl ihr =>
    obtain ⟨hl, hr⟩ := List.forall_mem_append.mp h
    exact ⟨by decide, (ihl hl).join (by decide) (ihr hr)⟩
  | sub lhs rhs ihl ihr =>
    obtain ⟨hl, hr⟩ := List.forall_mem_append.mp h
    exact ⟨by decide, (ihl hl).join (by decide) (ihr hr)⟩
  | arraySize array ih => exact ⟨by decide, ih h⟩
  | sizeOf object ih => exact ⟨by decide, ih h⟩

/-- Two terms with an operator between them are told from the whole. -/
@[simp]
theorem join_phrase_inj {l l' : Term} {op op' : String} {q q' : Phrase} :
    l.phrase.join op q = l'.phrase.join op' q' ↔ l.phrase = l'.phrase ∧ op = op' ∧ q = q' := by
  constructor
  · exact Phrase.join_inj_of_isItem l.isItem_phrase l'.isItem_phrase
  · rintro ⟨hl, rfl, rfl⟩
    rw [hl]

/-- The phrase of a term determines the term. A number could be taken for a variable, if there were
variables with such names. -/
theorem eq_of_phrase_eq {t u : Term} (ht : t.WellNamed) (hu : u.WellNamed)
    (h : t.phrase = u.phrase) : t = u := by
  induction t generalizing u with
  | var name =>
    cases u with
    | var name' => rw [Phrase.word.inj h]
    | int value => exact absurd (Phrase.word.inj h) ((wellNamed_var.mp ht).ne_repr _)
    | _ => cases h
  | int value =>
    cases u with
    | var name => exact absurd (Phrase.word.inj h).symm ((wellNamed_var.mp hu).ne_repr _)
    | int value' => rw [int64_eq_of_repr_eq (Phrase.word.inj h)]
    | _ => cases h
  | mul lhs rhs ihl ihr =>
    cases u <;> simp [phrase] at h ⊢
    obtain ⟨hl, hr⟩ := List.forall_mem_append.mp ht
    obtain ⟨hl', hr'⟩ := List.forall_mem_append.mp hu
    exact ⟨ihl hl hl' h.1, ihr hr hr' h.2⟩
  | add lhs rhs ihl ihr =>
    cases u <;> simp [phrase] at h ⊢
    obtain ⟨hl, hr⟩ := List.forall_mem_append.mp ht
    obtain ⟨hl', hr'⟩ := List.forall_mem_append.mp hu
    exact ⟨ihl hl hl' h.1, ihr hr hr' h.2⟩
  | sub lhs rhs ihl ihr =>
    cases u <;> simp [phrase] at h ⊢
    obtain ⟨hl, hr⟩ := List.forall_mem_append.mp ht
    obtain ⟨hl', hr'⟩ := List.forall_mem_append.mp hu
    exact ⟨ihl hl hl' h.1, ihr hr hr' h.2⟩
  | arraySize array ih =>
    cases u <;> simp [phrase] at h ⊢
    exact ih ht hu h
  | sizeOf object ih =>
    cases u <;> simp [phrase] at h ⊢
    exact ih ht hu h

/-- The text of a term determines the term. -/
theorem eq_of_text_eq {t u : Term} (ht : t.WellNamed) (hu : u.WellNamed) (h : t.text = u.text) :
    t = u := by
  rw [← text_phrase, ← text_phrase] at h
  exact eq_of_phrase_eq ht hu (Phrase.eq_of_text_eq (plain_phrase ht) (plain_phrase hu) h)

end Term

/-! ### Formulas -/

namespace Formula

/-- A formula as a phrase: connectives stand in brackets, comparisons do not. -/
def phrase : Formula → Phrase
  | true => .word "true"
  | false => .word "false"
  | not f => .group "!" f.phrase
  | eq lhs rhs => lhs.phrase.join "=" rhs.phrase
  | lt lhs rhs => lhs.phrase.join "<" rhs.phrase
  | le lhs rhs => lhs.phrase.join "<=" rhs.phrase
  | and f g => .group "" (f.phrase.join "&&" g.phrase)
  | or f g => .group "" (f.phrase.join "||" g.phrase)

theorem text_phrase (f : Formula) : f.phrase.text = f.text := by
  induction f with
  | true => rfl
  | false => rfl
  | not f ih =>
    apply String.toList_inj.mp
    simp [phrase, text, Phrase.text, ih]
  | eq lhs rhs =>
    apply String.toList_inj.mp
    simp [phrase, text, Phrase.text_join, Term.text_phrase]
  | lt lhs rhs =>
    apply String.toList_inj.mp
    simp [phrase, text, Phrase.text_join, Term.text_phrase]
  | le lhs rhs =>
    apply String.toList_inj.mp
    simp [phrase, text, Phrase.text_join, Term.text_phrase]
  | and f g ihf ihg =>
    apply String.toList_inj.mp
    simp [phrase, text, Phrase.text, Phrase.text_join, ihf, ihg]
  | or f g ihf ihg =>
    apply String.toList_inj.mp
    simp [phrase, text, Phrase.text, Phrase.text_join, ihf, ihg]

theorem plain_phrase {f : Formula} (h : f.WellNamed) : f.phrase.Plain := by
  induction f with
  | true => exact (by decide : Phrase.IsWord "true")
  | false => exact (by decide : Phrase.IsWord "false")
  | not f ih => exact ⟨by decide, ih h⟩
  | eq lhs rhs =>
    obtain ⟨hl, hr⟩ := List.forall_mem_append.mp h
    exact (Term.plain_phrase hl).join (by decide) (Term.plain_phrase hr)
  | lt lhs rhs =>
    obtain ⟨hl, hr⟩ := List.forall_mem_append.mp h
    exact (Term.plain_phrase hl).join (by decide) (Term.plain_phrase hr)
  | le lhs rhs =>
    obtain ⟨hl, hr⟩ := List.forall_mem_append.mp h
    exact (Term.plain_phrase hl).join (by decide) (Term.plain_phrase hr)
  | and f g ihf ihg =>
    obtain ⟨hf, hg⟩ := List.forall_mem_append.mp h
    exact ⟨by decide, (ihf hf).join (by decide) (ihg hg)⟩
  | or f g ihf ihg =>
    obtain ⟨hf, hg⟩ := List.forall_mem_append.mp h
    exact ⟨by decide, (ihf hf).join (by decide) (ihg hg)⟩

/-- A formula is written as a single item, or as two terms with a comparison between them. -/
theorem phrase_cases (f : Formula) :
    f.phrase.IsItem ∨
      ∃ (l r : Term) (op : String),
        f.phrase = l.phrase.join op r.phrase ∧ op ∈ ["=", "<", "<="] := by
  cases f with
  | true => exact .inl (.word _)
  | false => exact .inl (.word _)
  | not f => exact .inl (.group _ _)
  | eq lhs rhs => exact .inr ⟨lhs, rhs, _, rfl, by decide⟩
  | lt lhs rhs => exact .inr ⟨lhs, rhs, _, rfl, by decide⟩
  | le lhs rhs => exact .inr ⟨lhs, rhs, _, rfl, by decide⟩
  | and f g => exact .inl (.group _ _)
  | or f g => exact .inl (.group _ _)

/-- Two formulas with a connective between them are told from the whole: the first connective that is
not in brackets is the one between them, since a formula has none of its own there. -/
theorem join_phrase_inj {f f' : Formula} {c c' : String} {q q' : Phrase} (hc : c ∈ ["&&", "||"])
    (hc' : c' ∈ ["&&", "||"]) (h : f.phrase.join c q = f'.phrase.join c' q') :
    f.phrase = f'.phrase ∧ c = c' ∧ q = q' := by
  have hne : ∀ op ∈ ["=", "<", "<="], ∀ c ∈ ["&&", "||"], op ≠ c := by decide
  rcases f.phrase_cases with hf | ⟨l, r, op, hf, hop⟩
  · rcases f'.phrase_cases with hf' | ⟨l', r', op', hf', hop'⟩
    · exact Phrase.join_inj_of_isItem hf hf' h
    · -- Behind the item stands a connective, and behind the first term a comparison.
      rw [hf', Phrase.join_join] at h
      obtain ⟨-, hcop, -⟩ := Phrase.join_inj_of_isItem hf l'.isItem_phrase h
      exact absurd hcop.symm (hne op' hop' c hc)
  · rcases f'.phrase_cases with hf' | ⟨l', r', op', hf', hop'⟩
    · rw [hf, Phrase.join_join] at h
      obtain ⟨-, hcop, -⟩ := Phrase.join_inj_of_isItem l.isItem_phrase hf' h
      exact absurd hcop (hne op hop c' hc')
    · -- Two terms with a comparison each are read off before the connective is reached.
      rw [hf, hf', Phrase.join_join, Phrase.join_join, Term.join_phrase_inj,
        Term.join_phrase_inj] at h
      obtain ⟨hl, hop, hr, hcc, hq⟩ := h
      rw [hf, hf', hl, hop, hr]
      exact ⟨rfl, hcc, hq⟩

/-- The phrases of two well-named terms determine the terms. -/
theorem eq_and_eq_of_phrase_eq {l r l' r' : Term} (h : ∀ x ∈ l.names ++ r.names, IsVariableName x)
    (h' : ∀ x ∈ l'.names ++ r'.names, IsVariableName x)
    (hphrase : l.phrase = l'.phrase ∧ r.phrase = r'.phrase) : l = l' ∧ r = r' := by
  obtain ⟨hl, hr⟩ := List.forall_mem_append.mp h
  obtain ⟨hl', hr'⟩ := List.forall_mem_append.mp h'
  exact ⟨Term.eq_of_phrase_eq hl hl' hphrase.1, Term.eq_of_phrase_eq hr hr' hphrase.2⟩

/-- The phrase of a formula determines the formula. Comparisons and formulas in brackets are told
apart by their phrases alone. -/
theorem eq_of_phrase_eq {f h : Formula} (hf : f.WellNamed) (hh : h.WellNamed)
    (heq : f.phrase = h.phrase) : f = h := by
  induction f generalizing h with
  | true => cases h <;> simp [phrase] at heq ⊢
  | false => cases h <;> simp [phrase] at heq ⊢
  | not f ih =>
    cases h <;> simp [phrase] at heq ⊢
    exact ih hf hh heq
  | eq lhs rhs =>
    cases h <;> simp [phrase] at heq ⊢
    exact eq_and_eq_of_phrase_eq hf hh heq
  | lt lhs rhs =>
    cases h <;> simp [phrase] at heq ⊢
    exact eq_and_eq_of_phrase_eq hf hh heq
  | le lhs rhs =>
    cases h <;> simp [phrase] at heq ⊢
    exact eq_and_eq_of_phrase_eq hf hh heq
  | and f g ihf ihg =>
    obtain ⟨hf, hg⟩ := List.forall_mem_append.mp hf
    cases h <;> simp [phrase] at heq ⊢
    · obtain ⟨hf', hg'⟩ := List.forall_mem_append.mp hh
      obtain ⟨hfp, -, hgp⟩ := join_phrase_inj (by decide) (by decide) heq
      exact ⟨ihf hf hf' hfp, ihg hg hg' hgp⟩
    · obtain ⟨-, hop, -⟩ := join_phrase_inj (by decide) (by decide) heq
      exact absurd hop (by decide)
  | or f g ihf ihg =>
    obtain ⟨hf, hg⟩ := List.forall_mem_append.mp hf
    cases h <;> simp [phrase] at heq ⊢
    · obtain ⟨-, hop, -⟩ := join_phrase_inj (by decide) (by decide) heq
      exact absurd hop (by decide)
    · obtain ⟨hf', hg'⟩ := List.forall_mem_append.mp hh
      obtain ⟨hfp, -, hgp⟩ := join_phrase_inj (by decide) (by decide) heq
      exact ⟨ihf hf hf' hfp, ihg hg hg' hgp⟩

/-- The text of a formula determines the formula. -/
theorem eq_of_text_eq {f h : Formula} (hf : f.WellNamed) (hh : h.WellNamed)
    (heq : f.text = h.text) : f = h := by
  rw [← text_phrase, ← text_phrase] at heq
  exact eq_of_phrase_eq hf hh (Phrase.eq_of_text_eq (plain_phrase hf) (plain_phrase hh) heq)

end Formula

/-! ### Conditions -/

/-- An obligation joins nothing: it is one comparison, or trivial. -/
theorem Hazard.conjuncts_obligation (h : Hazard) : h.obligation.conjuncts = [h.obligation] := by
  unfold obligation
  split
  · rename_i f hbound
    obtain ⟨subscript, i, array, -, rfl⟩ := eq_lt_of_bound? hbound
    rfl
  · rfl
  · rfl

namespace Verifier

variable {v v' : Verifier} {g g' : NodeGraph} {p p' : Program.View} {alarm alarm' : Alarm}

/-- A condition can be taken apart: equal conditions join one obligation with the same facts. -/
theorem obligation_and_facts_of_condition_eq
    (h : v.condition g p alarm = v'.condition g' p' alarm') :
    alarm.hazard.obligation = alarm'.hazard.obligation ∧
      (v.propagation g p alarm).table.factsAt alarm.node =
        (v'.propagation g' p' alarm').table.factsAt alarm'.node := by
  -- Conjunctions nest to the left, with the obligation innermost. It is no conjunction itself, so
  -- that it is the first conjunct and the facts are the others.
  have hparts := congrArg Formula.conjuncts h
  rw [conjuncts_condition, conjuncts_condition, Hazard.conjuncts_obligation,
    Hazard.conjuncts_obligation] at hparts
  obtain ⟨hobligation, hfacts⟩ := List.cons.inj hparts
  refine ⟨hobligation, ExtTreeSet.ext_mem fun {f} => ?_⟩
  rw [← ExtTreeSet.mem_toList, ← ExtTreeSet.mem_toList]
  exact iff_of_eq (congrArg (f ∈ ·) hfacts)

/-- The condition of an alarm is well-named if the alarm and the program are written in
identifiers. -/
theorem wellNamed_condition (halarm : Identifiers alarm.hazard.names)
    (hprogram : ∀ n c, p.commandAt n = some c → Identifiers c.names) :
    (v.condition g p alarm).WellNamed := by
  refine Formula.wellNamed_conjoin (Hazard.wellNamed_obligation halarm) ?_
  intro f hf
  -- What arrives at the alarm is a fact of some command.
  have hslice := mem_sliceFacts_of_mem (ExtTreeSet.mem_toList.mp hf)
  obtain ⟨m, -, hgen⟩ := mem_sliceFacts.mp hslice
  obtain ⟨c, hc, hfact⟩ := Propagation.mem_generated.mp hgen
  exact Command.wellNamed_of_mem_facts (hprogram m c hc) hfact

/-- A program is written in identifiers if each entry of its table of commands is. -/
theorem identifiers_of_commands {p : Program}
    (h : ∀ e ∈ p.commands.toList, Identifiers e.2.names) :
    ∀ n c, p.view.commandAt n = some c → Identifiers c.names := by
  intro n c hc
  exact h (n, c) (ExtTreeMap.mem_toList_iff_getElem?_eq_some.mpr hc)

/-- What the text of a condition tells. Where variables are named by identifiers, or by two of them
with an arrow in between, a term and a formula are determined by their texts. The conditions of alarms
have such names if the program and the alarm are written in identifiers. So two verdicts that show
the same text are about the same obligation under the same facts, whatever the alarms, the programs
and the settings were. -/
theorem condition_text_tells_obligation_and_facts :
    (∀ t u : Term, t.WellNamed → u.WellNamed → t.text = u.text → t = u) ∧
    (∀ f h : Formula, f.WellNamed → h.WellNamed → f.text = h.text → f = h) ∧
    (∀ (v : Verifier) (g : NodeGraph) (p : Program.View) (alarm : Alarm),
      Identifiers alarm.hazard.names →
      (∀ n c, p.commandAt n = some c → Identifiers c.names) →
        (v.condition g p alarm).WellNamed) ∧
    ∀ {μ μ' : Type} (v v' : Verifier) (g g' : NodeGraph) (p p' : Program.View)
      (memories : Memories μ) (memories' : Memories μ') (alarm alarm' : Alarm),
      (v.condition g p alarm).WellNamed → (v'.condition g' p' alarm').WellNamed →
      (v.verdict g p memories alarm).condition = (v'.verdict g' p' memories' alarm').condition →
        alarm.hazard.obligation = alarm'.hazard.obligation ∧
          (v.propagation g p alarm).table.factsAt alarm.node =
            (v'.propagation g' p' alarm').table.factsAt alarm'.node := by
  refine ⟨fun t u => Term.eq_of_text_eq, fun f h => Formula.eq_of_text_eq,
    fun v g p alarm => wellNamed_condition, ?_⟩
  intro μ μ' v v' g g' p p' memories memories' alarm alarm' hnames hnames' htext
  have htext' : (v.condition g p alarm).text = (v'.condition g' p' alarm').text :=
    Option.some.inj htext
  exact obligation_and_facts_of_condition_eq (Formula.eq_of_text_eq hnames hnames' htext')

/-- The loop over an array, and a further command that does not bear on the access. -/
def arrayLoopAndMore : Program :=
  arrayLoop.addCommand ⟨"main", 3⟩ (.assign (.arrow (.localInt "p") "len") (.int (-1)))

/-- The two programs show the same text for the access, so they have the same facts there. The names
`true` and `p->len` are such that texts determine terms and formulas. -/
theorem texts_of_arrayLoop :
    let shown : Option String := some "((i < arrsize(a) && arrsize(a) = n) && i < n)"
    let loop := arrayLoop.view
    let more := arrayLoopAndMore.view
    ((verdict (μ := Unit) {} loop.defUse loop ⟨∅, ∅⟩ arrayLoopAlarm).condition = shown ∧
      (verdict (μ := Unit) {} more.defUse more ⟨∅, ∅⟩ arrayLoopAlarm).condition = shown) ∧
    (propagation {} loop.defUse loop arrayLoopAlarm).table.factsAt arrayLoopAlarm.node =
      (propagation {} more.defUse more arrayLoopAlarm).table.factsAt arrayLoopAlarm.node ∧
    (∀ f : Formula, f.WellNamed → f.text = "(true = p->len && true)" →
      f = .and (.eq (.var "true") (.var "p->len")) .true) ∧
    ∀ t : Term, t.WellNamed → t.text = "(true - -1)" → t = .sub (.var "true") (.int (-1)) := by
  intro shown loop more
  obtain ⟨hterm, hformula, hnamed, hverdict⟩ := condition_text_tells_obligation_and_facts
  have hloop : (verdict (μ := Unit) {} loop.defUse loop ⟨∅, ∅⟩ arrayLoopAlarm).condition =
      shown := by decide +kernel
  have hmore : (verdict (μ := Unit) {} more.defUse more ⟨∅, ∅⟩ arrayLoopAlarm).condition =
      shown := by decide +kernel
  have halarm : Identifiers arrayLoopAlarm.hazard.names := by decide
  have hloopNamed := hnamed {} loop.defUse loop arrayLoopAlarm halarm
    (identifiers_of_commands (by decide +kernel))
  have hmoreNamed := hnamed {} more.defUse more arrayLoopAlarm halarm
    (identifiers_of_commands (by decide +kernel))
  have htrue : IsVariableName "true" := .inl (by decide)
  have hlen : IsVariableName "p->len" := .inr ⟨"p", "len", by decide, by decide, rfl⟩
  refine ⟨⟨hloop, hmore⟩, ?_, ?_, ?_⟩
  · exact (hverdict {} {} _ _ _ _ _ _ _ _ hloopNamed hmoreNamed (hloop.trans hmore.symm)).2
  · intro f hf htext
    refine hformula f _ hf ?_ (htext.trans (by decide))
    simp [Formula.WellNamed, Formula.names, Term.names, htrue, hlen]
  · intro t ht htext
    refine hterm t _ ht ?_ (htext.trans (by decide))
    simp [Term.WellNamed, Term.names, htrue]

end Verifier

end AlarmDischarge
