import AlarmDischarge.Proofs.Names
import Mathlib.Data.List.TakeWhile

/-!
# `AlarmDischarge.Proofs.Conversion`: what conversion to terms forgets

A term knows a variable by its name alone and writes an access through a pointer as one more name
(`convert`, `convert_lval`). So different expressions may have the same term, and facts about the
one are then facts about the other. This module says which expressions are merged:

* `Expr.eraseCasts`, `LValue.nameTarget`, `LValue.forgetDeclaration`: the three things that a term
  does not show, each as a change of the syntax tree;
* `Expr.essence`: what is left of an expression after all three;
* `Expr.toTerm_essence`: conversion sees no more than that;
* `Term.readBack?_of_toTerm`: and it sees all of that: where variables are named by identifiers, the
  term can be read back, since the arrow shows where the name of a pointer ends;
* `Expr.term_eq_iff_essence_eq`: so two expressions have the same term if and only if they have the
  same essence.
-/

set_option autoImplicit false

namespace AlarmDischarge

/-! ### What a term does not show -/

mutual

/-- An expression without the casts in it, at any depth. -/
def Expr.eraseCasts : Expr → Expr
  | .const c => .const c
  | .lval place => .lval place.eraseCasts
  | .sizeOfType t => .sizeOfType t
  | .sizeOf e => .sizeOf e.eraseCasts
  | .unary op e => .unary op e.eraseCasts
  | .binary op lhs rhs => .binary op lhs.eraseCasts rhs.eraseCasts
  | .cast _ e => e.eraseCasts
  | .addrOf place => .addrOf place.eraseCasts
  | .startOf place => .startOf place.eraseCasts

/-- A place without the casts in it. -/
def LValue.eraseCasts : LValue → LValue
  | .mk host offset => .mk host.eraseCasts offset.eraseCasts

/-- A host without the casts in it. -/
def Host.eraseCasts : Host → Host
  | .var v => .var v
  | .mem address => .mem address.eraseCasts

/-- A chain of steps without the casts in it. -/
def Offset.eraseCasts : Offset → Offset
  | .none => .none
  | .field name rest => .field name rest.eraseCasts
  | .index subscript rest => .index subscript.eraseCasts rest.eraseCasts

end

mutual

/-- Changes every place in an expression, from the inside to the outside. -/
def Expr.mapPlaces (change : LValue → LValue) : Expr → Expr
  | .const c => .const c
  | .lval place => .lval (place.mapPlaces change)
  | .sizeOfType t => .sizeOfType t
  | .sizeOf e => .sizeOf (e.mapPlaces change)
  | .unary op e => .unary op (e.mapPlaces change)
  | .binary op lhs rhs => .binary op (lhs.mapPlaces change) (rhs.mapPlaces change)
  | .cast t e => .cast t (e.mapPlaces change)
  | .addrOf place => .addrOf (place.mapPlaces change)
  | .startOf place => .startOf (place.mapPlaces change)

/-- Changes the places in a place, and then the place. -/
def LValue.mapPlaces (change : LValue → LValue) : LValue → LValue
  | .mk host offset => change (.mk (host.mapPlaces change) (offset.mapPlaces change))

/-- Changes the places in a host. -/
def Host.mapPlaces (change : LValue → LValue) : Host → Host
  | .var v => .var v
  | .mem address => .mem (address.mapPlaces change)

/-- Changes the places in a chain of steps. -/
def Offset.mapPlaces (change : LValue → LValue) : Offset → Offset
  | .none => .none
  | .field name rest => .field name (rest.mapPlaces change)
  | .index subscript rest => .index (subscript.mapPlaces change) (rest.mapPlaces change)

end

/-- Writes what a local pointer variable points to as a field of the name `this`. -/
def LValue.nameTarget : LValue → LValue
  | .mk (.mem address) .none =>
    match address.bareVar? with
    | some v => if v.isGlobal then .mem address else .arrow v "this"
    | none => .mem address
  | place => place

/-- Keeps of the variable that a place starts at only the name. -/
def LValue.forgetDeclaration : LValue → LValue
  | .mk (.var v) offset => .mk (.var (.localInt v.name)) offset
  | place => place

/-- What a term can show of an expression: the casts are gone, what a local pointer `p` points to is
its field `p->this`, and a variable is its name. -/
def Expr.essence (e : Expr) : Expr :=
  (e.eraseCasts.mapPlaces LValue.nameTarget).mapPlaces LValue.forgetDeclaration

/-! ### The essence of what has a term -/

namespace Expr

/-- A place that has a term is in essence a variable or a field behind a variable. The term names it
in the same way. -/
theorem essence_lval_of_toTerm {place : LValue} {t : Term} (h : place.toTerm = .ok t) :
    (∃ v : Variable, place = .var v ∧ (lval place).essence = var (.localInt v.name) ∧
      t = .var v.name) ∨
    ∃ (v : Variable) (field : String), v.name ∈ place.names ∧
      (lval place).essence = lval (.arrow (.localInt v.name) field) ∧
      t = .var (v.name ++ "->" ++ field) := by
  rcases LValue.toTerm_cases h with ⟨v, rfl, rfl⟩ | ⟨v, field, rfl, rfl⟩ | ⟨v, rfl, hlocal, rfl⟩
  · exact .inl ⟨v, rfl, rfl, rfl⟩
  · exact .inr ⟨v, field, List.mem_cons_self, rfl, rfl⟩
  · refine .inr ⟨v, "this", List.mem_cons_self, ?_, ?_⟩
    -- Conversion refuses what a global pointer points to, so `v` is local here.
    · have hname : LValue.nameTarget (.mem (.var v)) = .arrow v "this" := by
        show (if v.isGlobal then _ else _) = _
        rw [hlocal]
        rfl
      show lval ((LValue.nameTarget (.mem (.var v))).mapPlaces LValue.forgetDeclaration) = _
      rw [hname]
      rfl
    · rw [String.append_assoc]
      rfl

/-- Conversion sees the essence of an expression and nothing else. -/
theorem toTerm_essence {e : Expr} {t : Term} (h : e.toTerm = .ok t) : e.essence.toTerm = .ok t := by
  refine Expr.toTerm_induction (P := fun e t => e.essence.toTerm = .ok t) ?_ ?_ ?_ ?_ ?_ h
  · intro value
    rfl
  · intro place t ht
    rcases essence_lval_of_toTerm ht with ⟨v, -, hessence, rfl⟩ | ⟨v, field, -, hessence, rfl⟩
    · rw [hessence]
      rfl
    · rw [hessence]
      rfl
  · intro lhs rhs l r ihl ihr
    show (binary .add lhs.essence rhs.essence).toTerm = _
    rw [toTerm, ihl, ihr]
    rfl
  -- The casts are gone from the essence, so there is nothing to convert.
  · intro type e t ih
    exact ih
  · intro e t ih
    show (sizeOf e.essence).toTerm = _
    rw [toTerm, ih]
    rfl

end Expr

/-! ### Reading a term back -/

/-- The place that a name in a term stands for. The first characters that an identifier can have are
the name of a variable; behind an arrow stands the name of a field. -/
def placeNamed (x : String) : LValue :=
  match x.toList.dropWhile isIdentifierPart with
  | '-' :: '>' :: field =>
    .arrow (.localInt (.ofList (x.toList.takeWhile isIdentifierPart))) (.ofList field)
  | _ => .var (.localInt x)

/-- The expression that a term stands for. Products, differences and lengths of arrays are no terms
of expressions. -/
def Term.readBack? : Term → Option Expr
  | .var name => some (.lval (placeNamed name))
  | .int value => some (.int value)
  | .add lhs rhs => do
    let l ← lhs.readBack?
    let r ← rhs.readBack?
    return .binary .add l r
  | .sizeOf object => do
    let e ← object.readBack?
    return .sizeOf e
  | .mul _ _ => none
  | .sub _ _ => none
  | .arraySize _ => none

/-- An identifier stands for a variable. -/
theorem placeNamed_of_isIdentifier {x : String} (h : isIdentifier x = true) :
    placeNamed x = .var (.localInt x) := by
  have hdrop : x.toList.dropWhile isIdentifierPart = [] :=
    List.dropWhile_eq_nil_iff.mpr fun c hc => isIdentifierPart_of_mem h hc
  rw [placeNamed, hdrop]

/-- A name with an arrow stands for a field: no identifier goes on over the arrow. -/
theorem placeNamed_arrow {base : String} (h : isIdentifier base = true) (field : String) :
    placeNamed (base ++ "->" ++ field) = .arrow (.localInt base) field := by
  have hchars : (base ++ "->" ++ field).toList = base.toList ++ '-' :: '>' :: field.toList := by
    simp
  have hbase : ∀ c ∈ base.toList, isIdentifierPart c = true := fun c hc =>
    isIdentifierPart_of_mem h hc
  -- This is what splits the name in one way only.
  have hstop : isIdentifierPart '-' = false := by decide
  have hdrop : (base.toList ++ '-' :: '>' :: field.toList).dropWhile isIdentifierPart =
      '-' :: '>' :: field.toList := by
    rw [List.dropWhile_append_of_pos hbase, List.dropWhile_cons_of_neg (by simp [hstop])]
  have htake : (base.toList ++ '-' :: '>' :: field.toList).takeWhile isIdentifierPart =
      base.toList := by
    rw [List.takeWhile_append_of_pos hbase, List.takeWhile_cons_of_neg (by simp [hstop]),
      List.append_nil]
  rw [placeNamed, hchars, hdrop, htake]
  simp

/-- Where variables are named by identifiers, the term of an expression can be read back to its
essence. -/
theorem Term.readBack?_of_toTerm {e : Expr} {t : Term} (hnames : Identifiers e.names)
    (h : e.toTerm = .ok t) : t.readBack? = some e.essence := by
  refine Expr.toTerm_induction
    (P := fun e t => Identifiers e.names → t.readBack? = some e.essence) ?_ ?_ ?_ ?_ ?_ h hnames
  · intro value _
    rfl
  · intro place t ht hplace
    rcases Expr.essence_lval_of_toTerm ht with ⟨v, rfl, hessence, rfl⟩ |
      ⟨v, field, hv, hessence, rfl⟩
    · rw [hessence, readBack?, placeNamed_of_isIdentifier (hplace _ List.mem_cons_self)]
      rfl
    · rw [hessence, readBack?, placeNamed_arrow (hplace _ hv)]
  · intro lhs rhs l r ihl ihr hsum
    obtain ⟨hlhs, hrhs⟩ := identifiers_append.mp hsum
    rw [readBack?, ihl hlhs, ihr hrhs]
    rfl
  · intro type e t ih hcast
    exact ih hcast
  · intro e t ih hsize
    rw [readBack?, ih hsize]
    rfl

namespace Expr

/-- What conversion merges. Two expressions that are written in identifiers and have terms have the
same term if and only if they are equal once casts are removed, what a local pointer points to is
identified with its field `this`, and of each variable only the name is kept. -/
theorem term_eq_iff_essence_eq {e₁ e₂ : Expr} {t₁ t₂ : Term} (hnames₁ : Identifiers e₁.names)
    (hnames₂ : Identifiers e₂.names) (h₁ : e₁.toTerm = .ok t₁) (h₂ : e₂.toTerm = .ok t₂) :
    t₁ = t₂ ↔ e₁.essence = e₂.essence := by
  constructor
  · intro heq
    have hback : some e₁.essence = some e₂.essence := by
      rw [← Term.readBack?_of_toTerm hnames₁ h₁, ← Term.readBack?_of_toTerm hnames₂ h₂, heq]
    exact Option.some.inj hback
  · intro heq
    have hok : (.ok t₁ : Except NotConvertible Term) = .ok t₂ := by
      rw [← toTerm_essence h₁, ← toTerm_essence h₂, heq]
    exact Except.ok.inj hok

/-- What a local pointer points to, and the size of a global variable, with casts at three places:
`(int) (*p + (char) sizeof((void *) g))`. -/
def targetPlusSize : Expr :=
  .cast .int (.binary .add (.lval (.mem (.var (.localInt "p"))))
    (.cast .char (.sizeOf (.cast (.ptr .void) (.var (.globalInt "g"))))))

/-- A field of the name `this` behind a global pointer, and the size of a local variable:
`p->this + sizeof(g)`. -/
def fieldPlusSize : Expr :=
  .binary .add (.lval (.arrow ⟨"p", true, .ptr .int⟩ "this")) (.sizeOf (.var (.localInt "g")))

/-- The two sums have the same term, and the same essence. A field of another name has neither. -/
theorem spellings_of_targetPlusSize :
    let t : Term := .add (.var "p->this") (.sizeOf (.var "g"))
    let other : Expr := .lval (.arrow (.localInt "p") "next")
    (targetPlusSize.toTerm = .ok t ∧ fieldPlusSize.toTerm = .ok t ∧
      targetPlusSize.essence = fieldPlusSize.essence) ∧
    other.toTerm = .ok (.var "p->next") ∧ fieldPlusSize.essence ≠ other.essence := by
  intro t other
  have hp : Identifiers targetPlusSize.names := by decide
  have hf : Identifiers fieldPlusSize.names := by decide
  have ho : Identifiers other.names := by decide
  have htp : targetPlusSize.toTerm = .ok t := rfl
  have htf : fieldPlusSize.toTerm = .ok t := rfl
  have hto : other.toTerm = .ok (.var "p->next") := rfl
  refine ⟨⟨htp, htf, (term_eq_iff_essence_eq hp hf htp htf).mp rfl⟩, hto, ?_⟩
  intro heq
  have hsame : t = .var "p->next" := (term_eq_iff_essence_eq hf ho htf hto).mpr heq
  exact absurd hsame (by decide)

end Expr

end AlarmDischarge
