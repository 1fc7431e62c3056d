import AlarmDischarge.Condition
import AlarmDischarge.Proofs.Fact

/-!
# `AlarmDischarge.Proofs.Names`: the names that terms and formulas mention

Programs name variables and fields by identifiers. Terms know variables by name only, and a field
behind a pointer, or what a pointer refers to, is one more variable, whose name `convert_lval` puts
together from two identifiers. This module says which names can arise:

* `isIdentifier`, `IsVariableName`: identifiers, and what conversion makes of them;
* `Expr.names`, `Command.names`, `Hazard.names`: the names of variables and fields in code;
* `Term.names`, `Formula.names`: the variables of terms and formulas;
* `Expr.wellNamed_toTerm`, `Command.wellNamed_of_mem_facts`, `Hazard.wellNamed_obligation`: where code
  is written in identifiers, the terms, facts and obligations that come from it have such names.
-/

set_option autoImplicit false

namespace AlarmDischarge

/-! ### Identifiers -/

/-- The characters an identifier may begin with: letters, the underscore, and what lies beyond
ASCII. -/
def isIdentifierStart (c : Char) : Bool := c.isAlpha || c == '_' || decide (128 ≤ c.toNat)

/-- The characters an identifier may go on with. -/
def isIdentifierPart (c : Char) : Bool := isIdentifierStart c || c.isDigit

/-- Whether a text is an identifier of the analysed program. -/
def isIdentifier (s : String) : Bool :=
  match s.toList with
  | [] => false
  | c :: cs => isIdentifierStart c && cs.all isIdentifierPart

/-- The names that variables have in terms: an identifier, or two with an arrow between them. -/
def IsVariableName (x : String) : Prop :=
  isIdentifier x = true ∨
    ∃ base field, isIdentifier base = true ∧ isIdentifier field = true ∧
      x = base ++ "->" ++ field

/-- No identifier begins with a digit. -/
theorem not_isIdentifierStart_of_isDigit {c : Char} (h : c.isDigit = true) :
    isIdentifierStart c = false := by
  have hrange : 48 ≤ c.toNat ∧ c.toNat ≤ 57 := by
    simpa [Char.isDigit, UInt32.le_iff_toNat_le] using h
  have hlow : ∀ d : Char, 57 < d.toNat → ¬c.val ≥ d.val := by
    intro d hd hle
    have hnat : d.toNat ≤ c.toNat := UInt32.le_iff_toNat_le.mp hle
    omega
  have hupper : c.isUpper = false := decide_eq_false fun hc => hlow 'A' (by decide) hc.1
  have hlower : c.isLower = false := by
    show (decide (c.val ≥ 'a'.val) && decide (c.val ≤ 'z'.val)) = false
    rw [decide_eq_false (hlow 'a' (by decide)), Bool.false_and]
  have halpha : c.isAlpha = false := Bool.or_eq_false_iff.mpr ⟨hupper, hlower⟩
  have hscore : c ≠ '_' := by
    rintro rfl
    exact absurd hrange (by decide)
  rw [isIdentifierStart, halpha, beq_eq_false_iff_ne.mpr hscore, decide_eq_false (by omega)]
  rfl

theorem exists_toList_of_isIdentifier {s : String} (h : isIdentifier s = true) :
    ∃ c cs, s.toList = c :: cs ∧ isIdentifierStart c = true ∧
      ∀ d ∈ cs, isIdentifierPart d = true := by
  unfold isIdentifier at h
  split at h
  · cases h
  · rename_i c cs hs
    rw [Bool.and_eq_true, List.all_eq_true] at h
    exact ⟨c, cs, hs, h.1, h.2⟩

theorem isIdentifierPart_of_mem {s : String} (h : isIdentifier s = true) {c : Char}
    (hc : c ∈ s.toList) : isIdentifierPart c = true := by
  obtain ⟨d, ds, hs, hd, hds⟩ := exists_toList_of_isIdentifier h
  rw [hs] at hc
  rcases List.mem_cons.mp hc with rfl | hc
  · rw [isIdentifierPart, hd, Bool.true_or]
  · exact hds c hc

namespace IsVariableName

/-- A name of a variable begins as an identifier does. -/
theorem exists_toList {x : String} (h : IsVariableName x) :
    ∃ c cs, x.toList = c :: cs ∧ isIdentifierStart c = true := by
  rcases h with h | ⟨base, field, hbase, -, rfl⟩
  · obtain ⟨c, cs, hx, hc, -⟩ := exists_toList_of_isIdentifier h
    exact ⟨c, cs, hx, hc⟩
  · obtain ⟨c, cs, hx, hc, -⟩ := exists_toList_of_isIdentifier hbase
    refine ⟨c, cs ++ "->".toList ++ field.toList, ?_, hc⟩
    simp [hx]

/-- It has no characters but those of identifiers and the two of the arrow. -/
theorem of_mem_toList {x : String} (h : IsVariableName x) {c : Char} (hc : c ∈ x.toList) :
    isIdentifierPart c = true ∨ c = '-' ∨ c = '>' := by
  rcases h with h | ⟨base, field, hbase, hfield, rfl⟩
  · exact .inl (isIdentifierPart_of_mem h hc)
  · rw [String.toList_append, String.toList_append, List.mem_append, List.mem_append] at hc
    rcases hc with (hc | hc) | hc
    · exact .inl (isIdentifierPart_of_mem hbase hc)
    · exact .inr (by simpa using hc)
    · exact .inl (isIdentifierPart_of_mem hfield hc)

end IsVariableName

/-! ### Names in code -/

mutual

/-- The names of variables and fields in an expression. -/
def Expr.names : Expr → List String
  | .const _ => []
  | .sizeOfType _ => []
  | .lval place => place.names
  | .sizeOf e => e.names
  | .unary _ e => e.names
  | .binary _ lhs rhs => lhs.names ++ rhs.names
  | .cast _ e => e.names
  | .addrOf place => place.names
  | .startOf place => place.names

/-- The names of variables and fields in a place. -/
def LValue.names : LValue → List String
  | .mk host offset => host.names ++ offset.names

/-- The names of variables and fields in a host. -/
def Host.names : Host → List String
  | .var v => [v.name]
  | .mem address => address.names

/-- The names of variables and fields in a chain of steps. -/
def Offset.names : Offset → List String
  | .none => []
  | .field name rest => name :: rest.names
  | .index subscript rest => subscript.names ++ rest.names

end

/-- The names of variables and fields in a command. -/
def Command.names : Command → List String
  | .assign place value => place.names ++ value.names
  | .alloc place size => place.names ++ size.names
  | .call result callee args =>
    result.elim [] LValue.names ++ callee.names ++ args.flatMap Expr.names
  | .fetch place => place.names
  | .assume condition => condition.names
  | .ret value => value.elim [] Expr.names
  | .skip => []

/-- The names of variables and fields in the operation that an alarm is about. -/
def Hazard.names : Hazard → List String
  | .element array subscript _ => array.names ++ subscript.names
  | .deref address _ => address.names
  | .division numerator denominator _ => numerator.names ++ denominator.names
  | .libraryCall _ args _ => args.flatMap Expr.names

/-- Every one of some names is an identifier. -/
def Identifiers (names : List String) : Prop := ∀ x ∈ names, isIdentifier x = true

instance (names : List String) : Decidable (Identifiers names) := List.decidableBAll _ _

@[simp]
theorem identifiers_append {xs ys : List String} :
    Identifiers (xs ++ ys) ↔ Identifiers xs ∧ Identifiers ys := List.forall_mem_append

theorem Expr.names_stripCasts (e : Expr) : e.stripCasts.names = e.names := by
  fun_induction Expr.stripCasts e with
  | case1 _ e ih => exact ih
  | case2 => rfl

/-! ### Names in terms and formulas -/

/-- The variables of a term, by name. -/
def Term.names : Term → List String
  | .var name => [name]
  | .int _ => []
  | .mul lhs rhs => lhs.names ++ rhs.names
  | .add lhs rhs => lhs.names ++ rhs.names
  | .sub lhs rhs => lhs.names ++ rhs.names
  | .arraySize array => array.names
  | .sizeOf object => object.names

/-- The variables of a formula, by name. -/
def Formula.names : Formula → List String
  | .true => []
  | .false => []
  | .not f => f.names
  | .eq lhs rhs => lhs.names ++ rhs.names
  | .lt lhs rhs => lhs.names ++ rhs.names
  | .le lhs rhs => lhs.names ++ rhs.names
  | .and f g => f.names ++ g.names
  | .or f g => f.names ++ g.names

/-- A term whose variables have the names that conversion makes of identifiers. -/
def Term.WellNamed (t : Term) : Prop := ∀ x ∈ t.names, IsVariableName x

/-- A formula whose variables have the names that conversion makes of identifiers. -/
def Formula.WellNamed (f : Formula) : Prop := ∀ x ∈ f.names, IsVariableName x

theorem Term.wellNamed_var {x : String} : (Term.var x).WellNamed ↔ IsVariableName x :=
  List.forall_mem_singleton

/-- What is well-named of two parts is so of both together. -/
theorem wellNamed_append {xs ys : List String} (hx : ∀ x ∈ xs, IsVariableName x)
    (hy : ∀ y ∈ ys, IsVariableName y) : ∀ z ∈ xs ++ ys, IsVariableName z :=
  List.forall_mem_append.mpr ⟨hx, hy⟩

/-- A conjunction is well-named if all that it joins is. -/
theorem Formula.wellNamed_conjoin {first : Formula} {rest : List Formula} (hfirst : first.WellNamed)
    (hrest : ∀ f ∈ rest, f.WellNamed) : (first.conjoin rest).WellNamed := by
  unfold conjoin
  induction rest generalizing first with
  | nil => exact hfirst
  | cons f rest ih =>
    have hand : (first.and f).WellNamed := wellNamed_append hfirst (hrest f List.mem_cons_self)
    exact ih hand fun g hg => hrest g (List.mem_cons_of_mem f hg)

/-! ### From code to terms and formulas -/

/-- The term of a place is a variable with one of the two forms of names. -/
theorem LValue.wellNamed_toTerm {place : LValue} {t : Term} (hnames : Identifiers place.names)
    (h : place.toTerm = .ok t) : t.WellNamed := by
  rcases toTerm_cases h with ⟨v, rfl, rfl⟩ | ⟨v, field, rfl, rfl⟩ | ⟨v, rfl, -, rfl⟩
  · exact Term.wellNamed_var.mpr (.inl (hnames v.name List.mem_cons_self))
  · refine Term.wellNamed_var.mpr (.inr ⟨v.name, field, hnames _ ?_, hnames _ ?_, rfl⟩)
    · exact List.mem_cons_self
    · exact List.mem_cons_of_mem _ List.mem_cons_self
  · refine Term.wellNamed_var.mpr (.inr ⟨v.name, "this", hnames _ ?_, by decide, ?_⟩)
    · exact List.mem_cons_self
    · rw [String.append_assoc]
      rfl

/-- Conversion makes no other names. -/
theorem Expr.wellNamed_toTerm {e : Expr} {t : Term} (hnames : Identifiers e.names)
    (h : e.toTerm = .ok t) : t.WellNamed := by
  refine Expr.toTerm_induction (P := fun e t => Identifiers e.names → t.WellNamed)
    ?_ ?_ ?_ ?_ ?_ h hnames
  · intro value _ x hx
    exact absurd hx List.not_mem_nil
  · intro place t ht hplace
    exact place.wellNamed_toTerm hplace ht
  · intro lhs rhs l r ihl ihr hsum
    obtain ⟨hlhs, hrhs⟩ := identifiers_append.mp hsum
    exact wellNamed_append (ihl hlhs) (ihr hrhs)
  · intro type e t ih hcast
    exact ih hcast
  · intro e t ih hsize
    exact ih hsize

theorem Expr.wellNamed_conditionReading {e : Expr} {f : Formula} (hnames : Identifiers e.names)
    (h : e.conditionReading = .fact f) : f.WellNamed := by
  refine Expr.conditionReading_induction
    (P := fun e f => Identifiers e.names → f.WellNamed) ?_ ?_ h hnames
  · intro lhs rhs l r hl hr hparts
    obtain ⟨hlhs, hrhs⟩ := identifiers_append.mp hparts
    exact wellNamed_append (lhs.wellNamed_toTerm hlhs hl) (rhs.wellNamed_toTerm hrhs hr)
  · intro e f _ ih hinner
    exact ih hinner

namespace Command

/-- The facts of a command that is written in identifiers are well-named. -/
theorem wellNamed_of_mem_facts {c : Command} {f : Formula} (hnames : Identifiers c.names)
    (h : f ∈ c.facts) : f.WellNamed := by
  cases establishes_of_mem_facts h with
  | assign hl hr =>
    obtain ⟨hplace, hvalue⟩ := identifiers_append.mp hnames
    exact wellNamed_append (LValue.wellNamed_toTerm hplace hl) (Expr.wellNamed_toTerm hvalue hr)
  | alloc hn =>
    obtain ⟨harray, hsize⟩ := identifiers_append.mp hnames
    have hname := Term.wellNamed_var.mpr (.inl (harray _ List.mem_cons_self))
    exact wellNamed_append hname (Expr.wellNamed_toTerm hsize hn)
  | @merge place callee a b result hcallee hresult =>
    obtain ⟨hfirst, hargs⟩ := identifiers_append.mp hnames
    obtain ⟨hplace, -⟩ := identifiers_append.mp hfirst
    have hterm := LValue.wellNamed_toTerm hplace hresult
    have ha : (Term.var a.name).WellNamed :=
      Term.wellNamed_var.mpr (.inl (hargs a.name List.mem_cons_self))
    have hb : (Term.var b.name).WellNamed :=
      Term.wellNamed_var.mpr (.inl (hargs b.name (List.mem_cons_of_mem _ List.mem_cons_self)))
    exact wellNamed_append (wellNamed_append hterm ha) (wellNamed_append hterm hb)
  | assume hread => exact Expr.wellNamed_conditionReading hnames hread

end Command

namespace Hazard

/-- The bound of an access converts an array or a pointer, and then a subscript. -/
theorem wellNamed_of_conversion {base : Except NotConvertible Term} {subscript : Expr} {f : Formula}
    (hbase : ∀ b, base = .ok b → b.WellNamed) (hsubscript : Identifiers subscript.names)
    (h : (do let b ← base; let i ← subscript.toTerm; return Formula.lt i (.arraySize b)) = .ok f) :
    f.WellNamed := by
  obtain ⟨b, hb, hnext⟩ := exists_of_bind_eq_ok h
  obtain ⟨i, hi, hlt⟩ := exists_of_bind_eq_ok hnext
  rw [← Except.ok.inj hlt]
  exact wellNamed_append (subscript.wellNamed_toTerm hsubscript hi) (hbase b hb)

theorem wellNamed_of_bound? {h : Hazard} {f : Formula} (hnames : Identifiers h.names)
    (hbound : h.bound? = some (.ok f)) : f.WellNamed := by
  cases h with
  | element array subscript loc =>
    obtain ⟨harray, hsubscript⟩ := identifiers_append.mp hnames
    exact wellNamed_of_conversion (fun _ => array.wellNamed_toTerm harray) hsubscript
      (Option.some.inj hbound)
  | deref address loc =>
    -- The three kinds of sums differ in the operator only.
    have hsum : ∀ {op : BinaryOp} {base subscript : Expr},
        address.stripCasts = .binary op base subscript →
        (do let b ← base.toTerm; let i ← subscript.toTerm; return Formula.lt i (.arraySize b)) =
          .ok f → f.WellNamed := by
      intro op base subscript hstrip hok
      have hparts : Identifiers (base.names ++ subscript.names) := by
        rw [show base.names ++ subscript.names = address.stripCasts.names by rw [hstrip]; rfl,
          Expr.names_stripCasts]
        exact hnames
      obtain ⟨hbase, hsubscript⟩ := identifiers_append.mp hparts
      exact wellNamed_of_conversion (fun _ => base.wellNamed_toTerm hbase) hsubscript hok
    simp only [bound?] at hbound
    split at hbound
    · exact hsum ‹_› (Option.some.inj hbound)
    · exact hsum ‹_› (Option.some.inj hbound)
    · exact hsum ‹_› (Option.some.inj hbound)
    · cases hbound
  | division numerator denominator loc => cases hbound
  | libraryCall function args loc => cases hbound

/-- The obligation of an operation that is written in identifiers is well-named. -/
theorem wellNamed_obligation {h : Hazard} (hnames : Identifiers h.names) :
    h.obligation.WellNamed := by
  unfold obligation
  split
  · rename_i f hbound
    exact wellNamed_of_bound? hnames hbound
  · exact fun x hx => absurd hx List.not_mem_nil
  · exact fun x hx => absurd hx List.not_mem_nil

end Hazard

end AlarmDischarge
