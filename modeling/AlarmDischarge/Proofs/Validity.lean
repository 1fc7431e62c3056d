import AlarmDischarge.Condition
import AlarmDischarge.Decision
import AlarmDischarge.Proofs.Fact

/-!
# `AlarmDischarge.Proofs.Validity`: what formulas mean

Conditions are handed to a decision procedure (`is_valid`) as plain syntax. This module says what
that syntax means. An interpretation gives every variable an integer and reads the two sizes as
functions on the integers, about which nothing is assumed. A formula is valid if it holds under
every interpretation, and a decision procedure is judged by how what it accepts compares with what
is valid.

Main definitions:

* `Interpretation`, `Term.value`, `Formula.Holds`, `Formula.Valid`;
* `FactSet.Entails`: facts that together make a formula hold;
* `Decision.Sound`, `Decision.Exact`: accepting only the valid formulas, or just these.

Main statements:

* `Alarm.valid_condition_iff`: the condition of an alarm joins its obligation and the facts, so it is
  valid only if each of them is valid on its own;
* `Hazard.valid_obligation_iff`: a bound is never valid, because the length of the array may be any
  integer. The only valid obligation is the trivial one.
-/

set_option autoImplicit false

namespace AlarmDischarge

open Std

/-! ### Interpretations -/

/-- A reading of the symbols that terms are made of. -/
structure Interpretation where
  var : String → Int
  arraySize : Int → Int
  sizeOf : Int → Int

/-- Every variable is zero, and so is every size. -/
def Interpretation.zero : Interpretation := ⟨fun _ => 0, fun _ => 0, fun _ => 0⟩

/-- The integer that a term stands for. Arithmetic is that of the integers and never overflows. -/
def Term.value (ι : Interpretation) : Term → Int
  | var name => ι.var name
  | int value => value.toInt
  | mul lhs rhs => lhs.value ι * rhs.value ι
  | add lhs rhs => lhs.value ι + rhs.value ι
  | sub lhs rhs => lhs.value ι - rhs.value ι
  | arraySize array => ι.arraySize (array.value ι)
  | sizeOf object => ι.sizeOf (object.value ι)

namespace Formula

/-- Whether a formula is true under an interpretation. -/
def Holds (ι : Interpretation) : Formula → Prop
  | true => True
  | false => False
  | not f => ¬ f.Holds ι
  | eq lhs rhs => lhs.value ι = rhs.value ι
  | lt lhs rhs => lhs.value ι < rhs.value ι
  | le lhs rhs => lhs.value ι ≤ rhs.value ι
  | and f g => f.Holds ι ∧ g.Holds ι
  | or f g => f.Holds ι ∨ g.Holds ι

/-- Under one interpretation a formula can be computed, whatever holds of all interpretations. -/
instance decidableHolds (ι : Interpretation) : (f : Formula) → Decidable (f.Holds ι)
  | true => inferInstanceAs (Decidable True)
  | false => inferInstanceAs (Decidable False)
  | not f => @instDecidableNot _ (decidableHolds ι f)
  | eq lhs rhs => inferInstanceAs (Decidable (lhs.value ι = rhs.value ι))
  | lt lhs rhs => inferInstanceAs (Decidable (lhs.value ι < rhs.value ι))
  | le lhs rhs => inferInstanceAs (Decidable (lhs.value ι ≤ rhs.value ι))
  | and f g => @instDecidableAnd _ _ (decidableHolds ι f) (decidableHolds ι g)
  | or f g => @instDecidableOr _ _ (decidableHolds ι f) (decidableHolds ι g)

/-- A formula is valid if it is true under every interpretation. -/
def Valid (f : Formula) : Prop := ∀ ι, f.Holds ι

/-- A conjunction holds if each of its parts does. The accumulated part changes with each step, so
the induction on the further formulas is for any first one. -/
theorem holds_conjoin (ι : Interpretation) (first : Formula) (rest : List Formula) :
    (first.conjoin rest).Holds ι ↔ first.Holds ι ∧ ∀ f ∈ rest, f.Holds ι := by
  induction rest generalizing first with
  | nil => simp [conjoin]
  | cons f rest ih =>
    show ((first.and f).conjoin rest).Holds ι ↔ _
    rw [ih, List.forall_mem_cons]
    show (first.Holds ι ∧ f.Holds ι) ∧ _ ↔ _
    rw [and_assoc]

/-- A conjunction is valid if each of its parts is. -/
theorem valid_conjoin (first : Formula) (rest : List Formula) :
    (first.conjoin rest).Valid ↔ first.Valid ∧ ∀ f ∈ rest, f.Valid := by
  constructor
  · intro h
    refine ⟨fun ι => ((holds_conjoin ι first rest).mp (h ι)).1, fun f hf ι => ?_⟩
    exact ((holds_conjoin ι first rest).mp (h ι)).2 f hf
  · intro h ι
    rw [holds_conjoin]
    exact ⟨h.1 ι, fun f hf => h.2 f hf ι⟩

end Formula

/-- Facts entail a formula if it is true wherever all of them are. -/
def FactSet.Entails (facts : FactSet) (f : Formula) : Prop :=
  ∀ ι, (∀ fact ∈ facts, fact.Holds ι) → f.Holds ι

/-- What valid facts entail is valid. -/
theorem FactSet.Entails.valid {facts : FactSet} {f : Formula} (h : facts.Entails f)
    (hfacts : ∀ fact ∈ facts, fact.Valid) : f.Valid := by
  intro ι
  exact h ι fun fact hfact => hfacts fact hfact ι

namespace Decision

/-- A procedure is sound if it accepts valid formulas only. -/
def Sound (d : Decision) : Prop := ∀ f, d.isValid f = true → f.Valid

/-- A procedure is exact if it accepts the valid formulas and no others. -/
def Exact (d : Decision) : Prop := ∀ f, d.isValid f = true ↔ f.Valid

theorem Exact.sound {d : Decision} (h : d.Exact) : d.Sound := fun f => (h f).mp

open Classical in
/-- The exact procedure. Validity is not computable, so neither is this procedure. -/
noncomputable def exact : Decision := ⟨"exact", fun f => decide f.Valid⟩

theorem exact_exact : exact.Exact := by
  classical
  intro f
  show decide f.Valid = true ↔ f.Valid
  rw [decide_eq_true_eq]

end Decision

/-! ### Conditions -/

/-- The condition of an alarm is valid if its obligation and all the facts are. The facts are parts of
what has to be shown, and nothing that may be assumed. -/
theorem Alarm.valid_condition_iff (a : Alarm) (facts : FactSet) :
    (a.condition facts).Valid ↔ a.hazard.obligation.Valid ∧ ∀ f ∈ facts, f.Valid := by
  unfold condition
  rw [Formula.valid_conjoin]
  simp only [ExtTreeSet.mem_toList]

/-! ### Bounds -/

/-- No expression speaks of the length of an array: the value of its term stays the same, however
lengths are read. -/
theorem Expr.value_toTerm {e : Expr} {t : Term} (h : e.toTerm = .ok t) (ι : Interpretation)
    (lengths : Int → Int) : t.value { ι with arraySize := lengths } = t.value ι := by
  refine Expr.toTerm_induction
    (P := fun _ t => t.value { ι with arraySize := lengths } = t.value ι) ?_ ?_ ?_ ?_ ?_ h
  · intro value
    rfl
  · intro place t ht
    obtain ⟨name, rfl⟩ := LValue.exists_eq_var_of_toTerm ht
    rfl
  · intro lhs rhs l r hl hr
    show l.value _ + r.value _ = l.value ι + r.value ι
    rw [hl, hr]
  · intro type e t ht
    exact ht
  · intro e t ht
    show ι.sizeOf (t.value _) = ι.sizeOf (t.value ι)
    rw [ht]

namespace Hazard

/-- Each operation that has a bound converts an array or a pointer, and then a subscript. -/
theorem exists_of_conversion_eq_ok {base : Except NotConvertible Term} {subscript : Expr}
    {f : Formula}
    (h : (do let b ← base; let i ← subscript.toTerm; return Formula.lt i (.arraySize b)) = .ok f) :
    ∃ i array, subscript.toTerm = .ok i ∧ f = .lt i (.arraySize array) := by
  obtain ⟨b, -, hnext⟩ := exists_of_bind_eq_ok h
  obtain ⟨i, hi, hlt⟩ := exists_of_bind_eq_ok hnext
  exact ⟨i, b, hi, (Except.ok.inj hlt).symm⟩

/-- A bound says that a subscript, which has a term, is below the length of an array. -/
theorem eq_lt_of_bound? {h : Hazard} {f : Formula} (hbound : h.bound? = some (.ok f)) :
    ∃ (subscript : Expr) (i array : Term), subscript.toTerm = .ok i ∧
      f = .lt i (.arraySize array) := by
  cases h with
  | element array subscript loc =>
    exact ⟨subscript, exists_of_conversion_eq_ok (Option.some.inj hbound)⟩
  | deref address loc =>
    simp only [bound?] at hbound
    split at hbound
    · exact ⟨_, exists_of_conversion_eq_ok (Option.some.inj hbound)⟩
    · exact ⟨_, exists_of_conversion_eq_ok (Option.some.inj hbound)⟩
    · exact ⟨_, exists_of_conversion_eq_ok (Option.some.inj hbound)⟩
    · cases hbound
  | division numerator denominator loc => cases hbound
  | libraryCall function args loc => cases hbound

/-- A bound is not valid: it fails where every array is just as long as the subscript says. -/
theorem not_valid_of_bound? {h : Hazard} {f : Formula} (hbound : h.bound? = some (.ok f)) :
    ¬ f.Valid := by
  intro hvalid
  obtain ⟨subscript, i, array, hi, rfl⟩ := eq_lt_of_bound? hbound
  have hlt : i.value { Interpretation.zero with arraySize := fun _ => i.value .zero } <
      i.value .zero :=
    hvalid { Interpretation.zero with arraySize := fun _ => i.value .zero }
  -- The subscript itself does not change with the lengths.
  rw [Expr.value_toTerm hi] at hlt
  exact absurd hlt (Int.lt_irrefl _)

/-- The only valid obligation is the trivial one, of an operation without a bound that has terms. -/
theorem valid_obligation_iff (h : Hazard) : h.obligation.Valid ↔ h.obligation = .true := by
  constructor
  · intro hvalid
    unfold obligation at hvalid ⊢
    split at hvalid
    · rename_i f hbound
      exact absurd hvalid (not_valid_of_bound? hbound)
    · rfl
    · rfl
  · intro htrue
    rw [htrue]
    exact fun _ => trivial

end Hazard

end AlarmDischarge
