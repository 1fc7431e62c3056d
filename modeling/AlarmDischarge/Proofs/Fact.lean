import AlarmDischarge.Fact.Generation
import AlarmDischarge.Order.FiniteSet

/-!
# `AlarmDischarge.Proofs.Fact`: opposites, and the shape of facts

The facts are those of `generate_facts`, and their opposites those of `negation`.

Main statements:

* `Formula.negation_negation`: taking the opposite twice gives a formula back, unless it begins with
  two negations;
* `FactSet.mem_reconcile`: a fact survives a join (`filter_contradictions`) unless its opposite is
  there too;
* `LValue.toTerm_cases`, `Expr.toTerm_induction`: the places that have a term, and induction over the
  expressions that have one;
* `Expr.conditionReading_induction`: induction over the conditions that say something;
* `Command.mem_facts_iff_establishes`: the four ways in which a fact comes from a command;
* `Command.facts_cases`: so it is an equation, a choice between two equations, or, coming from an
  assumption, a comparison under negations;
* `Command.negation_not_mem_facts`: so no command opposes the first two;
* `Command.not_isSelfContradictory`: and no fact of a command is false by its shape.
-/

set_option autoImplicit false

namespace AlarmDischarge

open Std

namespace Formula

/-! ### Opposites -/

theorem not_ne_self (f : Formula) : not f ≠ f := by
  intro h
  have hsize := congrArg sizeOf h
  simp at hsize

/-- No formula is its own opposite. -/
theorem ne_negation (f : Formula) : f ≠ f.negation := by
  cases f with
  | not g => exact not_ne_self g
  | true => simp [negation]
  | false => simp [negation]
  | eq lhs rhs => simp [negation]
  | lt lhs rhs => simp [negation]
  | le lhs rhs => simp [negation]
  | and f g => simp [negation]
  | or f g => simp [negation]

/-- Only the two ways to write falsehood outright are false by their shape. -/
theorem isSelfContradictory_iff {f : Formula} :
    f.isSelfContradictory = Bool.true ↔ f = false ∨ f = not true := by
  have hne : (f == f.negation) = Bool.false := beq_eq_false_iff_ne.mpr (ne_negation f)
  rw [isSelfContradictory, hne, Bool.or_false, Bool.or_eq_true, beq_iff_eq, beq_iff_eq]

/-- Taking the opposite twice gives a formula back, unless it begins with two negations: then the
first step strips one and the second strips the other. -/
theorem negation_negation {f : Formula} (h : ∀ g, f ≠ not (not g)) : f.negation.negation = f := by
  cases f with
  | not g =>
    cases g with
    | not g' => exact absurd rfl (h g')
    | true => rfl
    | false => rfl
    | eq lhs rhs => rfl
    | lt lhs rhs => rfl
    | le lhs rhs => rfl
    | and f g => rfl
    | or f g => rfl
  | true => rfl
  | false => rfl
  | eq lhs rhs => rfl
  | lt lhs rhs => rfl
  | le lhs rhs => rfl
  | and f g => rfl
  | or f g => rfl

/-- The opposite of a formula that is no negation is its negation. -/
theorem negation_eq_not {f : Formula} (h : ∀ g, f ≠ not g) : f.negation = not f := by
  unfold negation
  split
  · exact absurd rfl (h _)
  · rfl

/-- A comparison by order under any number of negations: what a branch condition says. -/
inductive IsComparison : Formula → Prop where
  | lt (lhs rhs : Term) : IsComparison (lt lhs rhs)
  | not {f : Formula} (inner : IsComparison f) : IsComparison (not f)

/-- An equation, such as one that says how long an array is, or a choice between two equations for
one term: what commands say that are no assumptions. -/
inductive IsEquational : Formula → Prop where
  | eq (lhs rhs : Term) : IsEquational (eq lhs rhs)
  | choice (lhs first second : Term) : IsEquational (or (eq lhs first) (eq lhs second))

theorem IsComparison.not_isSelfContradictory {f : Formula} (h : f.IsComparison) :
    f.isSelfContradictory = Bool.false := by
  rw [Bool.eq_false_iff, ne_eq, isSelfContradictory_iff]
  rintro (rfl | rfl)
  · cases h
  · cases h with
    | not inner => cases inner

end Formula

/-- A fact survives a join if it is there, its opposite is not, and it is not false by its shape. -/
theorem FactSet.mem_reconcile {incoming generated : FactSet} {f : Formula} :
    f ∈ reconcile incoming generated ↔
      (f ∈ incoming ∨ f ∈ generated) ∧ ¬(f.negation ∈ incoming ∨ f.negation ∈ generated) ∧
        f.isSelfContradictory = false := by
  unfold reconcile consistentPart
  rw [FiniteSet.mem_filter, ExtTreeSet.mem_union_iff, Bool.and_eq_true, Bool.not_eq_true',
    Bool.not_eq_true', ← ExtTreeSet.mem_union_iff (k := f.negation), ← Bool.not_eq_true]
  rfl

/-! ### What commands establish -/

/-- A conversion that rests on another succeeds only if that one does. -/
theorem exists_of_bind_eq_ok {α β : Type} {first : Except NotConvertible α}
    {next : α → Except NotConvertible β} {b : β} (h : first >>= next = .ok b) :
    ∃ a, first = .ok a ∧ next a = .ok b := by
  cases first with
  | error cause => cases h
  | ok a => exact ⟨a, rfl, h⟩

@[simp]
theorem LValue.bareVar?_var (v : Variable) : (LValue.var v).bareVar? = some v := rfl

@[simp]
theorem Expr.bareVar?_var (v : Variable) : (Expr.var v).bareVar? = some v := rfl

theorem LValue.eq_var_of_bareVar? {place : LValue} {v : Variable} (h : place.bareVar? = some v) :
    place = .var v := by
  unfold bareVar? at h
  split at h
  · rw [← Option.some.inj h]
    rfl
  · cases h

theorem Expr.eq_var_of_bareVar? {e : Expr} {v : Variable} (h : e.bareVar? = some v) :
    e = .var v := by
  unfold bareVar? at h
  split at h
  · rw [LValue.eq_var_of_bareVar? h]
    rfl
  · cases h

/-- Three kinds of places have a term: a variable, a field of what a pointer variable points to, and
what a local pointer variable points to. -/
theorem LValue.toTerm_cases {place : LValue} {t : Term} (h : place.toTerm = .ok t) :
    (∃ v, place = .var v ∧ t = .var v.name) ∨
      (∃ v field, place = .arrow v field ∧ t = .var (v.name ++ "->" ++ field)) ∨
        ∃ v, place = .mem (.var v) ∧ v.isGlobal = false ∧ t = .var (v.name ++ "->this") := by
  unfold toTerm at h
  split at h
  · exact .inl ⟨_, rfl, (Except.ok.inj h).symm⟩
  · split at h
    · rename_i v hv
      refine .inr (.inl ⟨v, _, ?_, (Except.ok.inj h).symm⟩)
      rw [Expr.eq_var_of_bareVar? hv]
      rfl
    · cases h
  · split at h
    · rename_i v hv
      split at h
      · cases h
      · rename_i hlocal
        refine .inr (.inr ⟨v, ?_, Bool.eq_false_iff.mpr hlocal, (Except.ok.inj h).symm⟩)
        rw [Expr.eq_var_of_bareVar? hv]
        rfl
    · cases h
  · cases h

/-- The term of a place is a variable. -/
theorem LValue.exists_eq_var_of_toTerm {place : LValue} {t : Term} (h : place.toTerm = .ok t) :
    ∃ name, t = .var name := by
  rcases toTerm_cases h with ⟨v, -, rfl⟩ | ⟨v, field, -, rfl⟩ | ⟨v, -, -, rfl⟩
  · exact ⟨_, rfl⟩
  · exact ⟨_, rfl⟩
  · exact ⟨_, rfl⟩

/-- What holds of integer literals and of the terms of places, and of a sum, a cast and a size if it
holds of their parts, holds of every expression that has a term. -/
theorem Expr.toTerm_induction {P : Expr → Term → Prop}
    (hint : ∀ value, P (.const (.int value)) (.int value))
    (hplace : ∀ place t, place.toTerm = .ok t → P (.lval place) t)
    (hadd : ∀ lhs rhs l r, P lhs l → P rhs r → P (.binary .add lhs rhs) (.add l r))
    (hcast : ∀ type e t, P e t → P (.cast type e) t)
    (hsize : ∀ e t, P e t → P (.sizeOf e) (.sizeOf t))
    {e : Expr} {t : Term} (h : e.toTerm = .ok t) : P e t := by
  fun_induction Expr.toTerm e generalizing t with
  | case1 value =>
    rw [← Except.ok.inj h]
    exact hint value
  | case2 place => exact hplace place t h
  | case3 lhs rhs ihl ihr =>
    obtain ⟨l, hl, hok⟩ := exists_of_bind_eq_ok h
    obtain ⟨r, hr, hsum⟩ := exists_of_bind_eq_ok hok
    rw [← Except.ok.inj hsum]
    exact hadd lhs rhs l r (ihl hl) (ihr hr)
  | case4 type e ih => exact hcast type e t (ih h)
  | case5 e ih =>
    obtain ⟨u, hu, hok⟩ := exists_of_bind_eq_ok h
    rw [← Except.ok.inj hok]
    exact hsize e u (ih hu)
  | case6 => cases h

namespace Reading

theorem ofConversion_eq_fact {subject : String} {e : Except NotConvertible Formula} {f : Formula}
    (h : ofConversion subject e = fact f) : e = .ok f := by
  cases e with
  | error cause => simp [ofConversion] at h
  | ok g =>
    have hg : g = f := by simpa [ofConversion] using h
    rw [hg]

theorem map_eq_fact {change : Formula → Formula} {r : Reading} {f : Formula}
    (h : r.map change = fact f) : ∃ g, r = fact g ∧ f = change g := by
  cases r with
  | fact g => exact ⟨g, rfl, (Reading.fact.inj h).symm⟩
  | nothing => cases h
  | obscure subject cause => cases h

end Reading

/-- What holds of comparisons between expressions that have terms, and of a negated condition if it
holds of the condition, holds of every condition that says something. -/
theorem Expr.conditionReading_induction {P : Expr → Formula → Prop}
    (hlt : ∀ lhs rhs l r, lhs.toTerm = .ok l → rhs.toTerm = .ok r →
      P (.binary .lt lhs rhs) (.lt l r))
    (hnot : ∀ e f, e.conditionReading = .fact f → P e f → P (.unary .not e) (.not f))
    {e : Expr} {f : Formula} (h : e.conditionReading = .fact f) : P e f := by
  fun_induction Expr.conditionReading e generalizing f with
  | case1 e ih =>
    obtain ⟨g, hg, rfl⟩ := Reading.map_eq_fact h
    exact hnot e g hg (ih hg)
  | case2 lhs rhs =>
    obtain ⟨l, hl, hok⟩ := exists_of_bind_eq_ok (Reading.ofConversion_eq_fact h)
    obtain ⟨r, hr, heq⟩ := exists_of_bind_eq_ok hok
    rw [← Except.ok.inj heq]
    exact hlt lhs rhs l r hl hr
  | case3 => cases h

/-- What a branch condition says is a comparison under negations. -/
theorem Expr.isComparison_of_conditionReading {e : Expr} {f : Formula}
    (h : e.conditionReading = .fact f) : f.IsComparison := by
  refine Expr.conditionReading_induction (P := fun _ f => f.IsComparison) ?_ ?_ h
  · intro _ _ l r _ _
    exact .lt l r
  · intro _ f _ ih
    exact .not ih

/-- Only a negated condition says something negated. -/
theorem Expr.eq_not_of_conditionReading {e : Expr} {f : Formula}
    (h : e.conditionReading = .fact (.not f)) :
    ∃ inner, e = .unary .not inner ∧ inner.conditionReading = .fact f := by
  refine Expr.conditionReading_induction (P := fun e g => g = .not f →
    ∃ inner, e = .unary .not inner ∧ inner.conditionReading = .fact f) ?_ ?_ h rfl
  · intro _ _ _ _ _ _ heq
    cases heq
  · intro inner g hinner _ heq
    cases heq
    exact ⟨inner, rfl, hinner⟩

namespace Command

theorem mem_facts {c : Command} {f : Formula} : f ∈ c.facts ↔ c.reading = .fact f := by
  unfold facts
  cases c.reading with
  | fact g => simp [Reading.fact?]
  | nothing => simp [Reading.fact?]
  | obscure subject cause => simp [Reading.fact?]

/-- How a fact comes from a command. -/
inductive Establishes : Command → Formula → Prop where
  /-- an assignment says that the two sides are equal -/
  | assign {place : LValue} {value : Expr} {l r : Term} (hl : place.toTerm = .ok l)
      (hr : value.toTerm = .ok r) : Establishes (assign place value) (.eq l r)
  /-- an allocation says how long the array is -/
  | alloc {array : Variable} {size : Expr} {n : Term} (hn : size.toTerm = .ok n) :
      Establishes (alloc (.var array) size) (.eq (.arraySize (.var array.name)) n)
  /-- a merge says that the result is one of two variables -/
  | merge {place : LValue} {callee : Expr} {a b : Variable} {result : Term}
      (hcallee : callee.bareVar?.map Variable.name = some mergeFunction)
      (hresult : place.toTerm = .ok result) :
      Establishes (call (some place) callee [.var a, .var b])
        (.or (.eq result (.var a.name)) (.eq result (.var b.name)))
  /-- an assumption says what its condition says -/
  | assume {condition : Expr} {f : Formula} (hread : condition.conditionReading = .fact f) :
      Establishes (assume condition) f

/-- A merge establishes something if it has two arguments, both of them variables, and the place of
its result has a term. -/
theorem mergeReading_eq_fact {subject : String} {place : LValue} {args : List Expr} {f : Formula}
    (h : mergeReading subject place args = .fact f) :
    ∃ a b result, args = [.var a, .var b] ∧ place.toTerm = .ok result ∧
      f = .or (.eq result (.var a.name)) (.eq result (.var b.name)) := by
  unfold mergeReading at h
  split at h
  · split at h
    · rename_i a b ha hb
      obtain ⟨result, hresult, hok⟩ := exists_of_bind_eq_ok (Reading.ofConversion_eq_fact h)
      refine ⟨a, b, result, ?_, hresult, (Except.ok.inj hok).symm⟩
      rw [Expr.eq_var_of_bareVar? ha, Expr.eq_var_of_bareVar? hb]
    · cases h
  · cases h

/-- A fact comes from a command in one of four ways. -/
theorem establishes_of_mem_facts {c : Command} {f : Formula} (h : f ∈ c.facts) :
    c.Establishes f := by
  have hread := mem_facts.mp h
  cases c with
  | assign place value =>
    obtain ⟨l, hl, hok⟩ := exists_of_bind_eq_ok (Reading.ofConversion_eq_fact hread)
    obtain ⟨r, hr, heq⟩ := exists_of_bind_eq_ok hok
    rw [← Except.ok.inj heq]
    exact .assign hl hr
  | alloc place size =>
    simp only [reading] at hread
    split at hread
    · rename_i array harray
      obtain ⟨n, hn, heq⟩ := exists_of_bind_eq_ok (Reading.ofConversion_eq_fact hread)
      rw [← Except.ok.inj heq, LValue.eq_var_of_bareVar? harray]
      exact .alloc hn
    · cases hread
  | call result callee args =>
    cases result with
    | none => cases hread
    | some place =>
      simp only [reading] at hread
      split at hread
      · rename_i hcallee
        obtain ⟨a, b, result, rfl, hresult, rfl⟩ := mergeReading_eq_fact hread
        exact .merge hcallee hresult
      · cases hread
  | assume condition => exact .assume hread
  | fetch place => cases hread
  | ret value => cases hread
  | skip => cases hread

theorem mem_facts_iff_establishes {c : Command} {f : Formula} : f ∈ c.facts ↔ c.Establishes f := by
  refine ⟨establishes_of_mem_facts, fun h => mem_facts.mpr ?_⟩
  cases h with
  | assign hl hr =>
    simp only [reading, hl, hr]
    rfl
  | alloc hn =>
    simp only [reading, LValue.bareVar?_var, hn]
    rfl
  | merge hcallee hresult =>
    simp only [reading, calleeName?, hcallee, if_true, mergeReading, Expr.bareVar?_var, hresult]
    rfl
  | assume hread => exact hread

/-- A command establishes an equation or a choice between equations, or, being an assumption, what
its condition says. -/
theorem facts_cases {c : Command} {f : Formula} (h : f ∈ c.facts) :
    f.IsEquational ∨ ∃ condition, c = .assume condition ∧ condition.conditionReading = .fact f := by
  cases establishes_of_mem_facts h with
  | assign hl hr => exact .inl (.eq _ _)
  | alloc hn => exact .inl (.eq _ _)
  | merge hcallee hresult => exact .inl (.choice _ _ _)
  | assume hread => exact .inr ⟨_, rfl, hread⟩

/-- A command that establishes something twice negated assumes a condition twice negated. -/
theorem eq_assume_of_not_not_mem_facts {c : Command} {h : Formula} (hc : .not (.not h) ∈ c.facts) :
    ∃ e, c = .assume (.unary .not (.unary .not e)) ∧ e.conditionReading = .fact h := by
  rcases facts_cases hc with heq | ⟨condition, rfl, hread⟩
  · cases heq
  · obtain ⟨e', rfl, hread'⟩ := Expr.eq_not_of_conditionReading hread
    obtain ⟨e, rfl, he⟩ := Expr.eq_not_of_conditionReading hread'
    exact ⟨e, rfl, he⟩

/-- Commands establish the opposite of comparisons only. -/
theorem isComparison_of_not_mem_facts {c : Command} {f : Formula} (h : .not f ∈ c.facts) :
    f.IsComparison := by
  rcases facts_cases h with heq | ⟨_, -, hread⟩
  · cases heq
  · cases Expr.isComparison_of_conditionReading hread with
    | not inner => exact inner

/-- No command establishes the opposite of an equation, or of a choice between equations. -/
theorem negation_not_mem_facts {c : Command} {f : Formula} (hf : f.IsEquational) :
    f.negation ∉ c.facts := by
  intro h
  cases hf with
  | eq lhs rhs => cases isComparison_of_not_mem_facts h
  | choice lhs first second => cases isComparison_of_not_mem_facts h

/-- No fact that a command establishes is false by its shape. -/
theorem not_isSelfContradictory {c : Command} {f : Formula} (h : f ∈ c.facts) :
    f.isSelfContradictory = false := by
  rcases facts_cases h with heq | ⟨condition, -, hread⟩
  · cases heq with
    | eq lhs rhs => rfl
    | choice lhs first second => rfl
  · exact (Expr.isComparison_of_conditionReading hread).not_isSelfContradictory

end Command

end AlarmDischarge
