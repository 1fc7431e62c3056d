import AlarmDischarge.Proofs.Names

/-!
# `AlarmDischarge.Proofs.FactVariables`: the variables that facts speak of

Facts travel along the def-use graph, and the def-use graph follows variables: it links a node that
defines a variable to the nodes that read it. Conversion to terms (`convert`) and the collection of
the variables that a command defines and reads (`defs`, `uses`) are two recursions over the same
syntax that do not know of each other. This module shows that they agree:

* `LValue.definedVariable?_or_isFieldBehind_of_toTerm`: the term of a place names the variable that
  the place is, or a field behind a variable that is read to find the place;
* `Expr.refersTo_of_toTerm`, `Expr.refersTo_of_conditionReading`: the term of an expression, and what
  a condition says, names variables that are read, or fields behind them;
* `Command.facts_speak_of_tracked_variables`: so a fact of a command speaks of nothing that the
  def-use graph does not follow at its node.
-/

set_option autoImplicit false

namespace AlarmDischarge

open Std

/-- A name that stands for a field behind one of some variables. -/
def IsFieldBehind (vars : ExtTreeSet String) (x : String) : Prop :=
  ∃ base field, base ∈ vars ∧ x = base ++ "->" ++ field

/-- A name that stands for one of some variables, or for a field behind one of them. -/
def RefersTo (vars : ExtTreeSet String) (x : String) : Prop := x ∈ vars ∨ IsFieldBehind vars x

theorem IsFieldBehind.mono {vars vars' : ExtTreeSet String} {x : String} (h : IsFieldBehind vars x)
    (hsub : ∀ y ∈ vars, y ∈ vars') : IsFieldBehind vars' x := by
  obtain ⟨base, field, hbase, hx⟩ := h
  exact ⟨base, field, hsub base hbase, hx⟩

theorem RefersTo.mono {vars vars' : ExtTreeSet String} {x : String} (h : RefersTo vars x)
    (hsub : ∀ y ∈ vars, y ∈ vars') : RefersTo vars' x :=
  h.imp (hsub x) fun hfield => hfield.mono hsub

theorem RefersTo.union_left {vars others : ExtTreeSet String} {x : String} (h : RefersTo vars x) :
    RefersTo (vars ∪ others) x :=
  h.mono fun _ hy => ExtTreeSet.mem_union_iff.mpr (.inl hy)

theorem RefersTo.union_right {vars others : ExtTreeSet String} {x : String}
    (h : RefersTo others x) : RefersTo (vars ∪ others) x :=
  h.mono fun _ hy => ExtTreeSet.mem_union_iff.mpr (.inr hy)

/-! ### Places and expressions -/

theorem Expr.mem_variables_var (v : Variable) : v.name ∈ (Expr.var v).variables := by
  simp [Expr.var, LValue.var, Expr.variables, LValue.accessVariables, Host.accessVariables]

namespace LValue

/-- To find what a pointer variable points to, the variable is read. -/
theorem mem_readVariables_mem (v : Variable) (offset : Offset) :
    v.name ∈ (LValue.mk (.mem (.var v)) offset).readVariables :=
  ExtTreeSet.mem_union_iff.mpr (.inl (Expr.mem_variables_var v))

/-- The term of a place names the variable that a write to the place defines, or a field behind a
variable that is read to find the place. A write through a pointer defines no variable, so that the
second is all there is in that case. -/
theorem definedVariable?_or_isFieldBehind_of_toTerm {place : LValue} {t : Term} {x : String}
    (h : place.toTerm = .ok t) (hx : x ∈ t.names) :
    place.definedVariable? = some x ∨ IsFieldBehind place.readVariables x := by
  rcases toTerm_cases h with ⟨v, rfl, rfl⟩ | ⟨v, field, rfl, rfl⟩ | ⟨v, rfl, -, rfl⟩
  · rw [List.mem_singleton.mp hx]
    exact .inl rfl
  · rw [List.mem_singleton.mp hx]
    exact .inr ⟨v.name, field, mem_readVariables_mem v _, rfl⟩
  · rw [List.mem_singleton.mp hx]
    refine .inr ⟨v.name, "this", mem_readVariables_mem v _, ?_⟩
    rw [String.append_assoc]
    rfl

/-- A variable that a write to a place defines is read where the place is loaded. -/
theorem mem_accessVariables_of_definedVariable? {place : LValue} {x : String}
    (h : place.definedVariable? = some x) : x ∈ place.accessVariables := by
  obtain ⟨host, offset⟩ := place
  cases host with
  | var v =>
    cases h
    simp [accessVariables, Host.accessVariables]
  | mem address => cases h

/-- What is read to find a place is read where the place is loaded. -/
theorem mem_accessVariables_of_mem_readVariables {place : LValue} {x : String}
    (h : x ∈ place.readVariables) : x ∈ place.accessVariables := by
  obtain ⟨host, offset⟩ := place
  rw [readVariables, ExtTreeSet.mem_union_iff] at h
  rw [accessVariables, ExtTreeSet.mem_union_iff]
  refine h.imp_left fun hhost => ?_
  cases host with
  | var v => simp [Host.readVariables] at hhost
  | mem address => exact hhost

end LValue

namespace Expr

/-- The term of an expression names variables that the expression reads, or fields behind them. -/
theorem refersTo_of_toTerm {e : Expr} {t : Term} {x : String} (h : e.toTerm = .ok t)
    (hx : x ∈ t.names) : RefersTo e.variables x := by
  refine Expr.toTerm_induction (P := fun e t => x ∈ t.names → RefersTo e.variables x)
    ?_ ?_ ?_ ?_ ?_ h hx
  · intro value hint
    cases hint
  · intro place t ht hplace
    rcases LValue.definedVariable?_or_isFieldBehind_of_toTerm ht hplace with hself | hfield
    · exact .inl (LValue.mem_accessVariables_of_definedVariable? hself)
    · exact .inr (hfield.mono fun _ => LValue.mem_accessVariables_of_mem_readVariables)
  · intro lhs rhs l r ihl ihr hsum
    rcases List.mem_append.mp hsum with hl | hr
    · exact (ihl hl).union_left
    · exact (ihr hr).union_right
  -- A cast and a size have the names of their operand and read what it reads.
  · intro type e t ih hcast
    exact ih hcast
  · intro e t ih hsize
    exact ih hsize

/-- What a condition says names variables that the condition reads, or fields behind them. -/
theorem refersTo_of_conditionReading {e : Expr} {f : Formula} {x : String}
    (h : e.conditionReading = .fact f) (hx : x ∈ f.names) : RefersTo e.variables x := by
  refine Expr.conditionReading_induction
    (P := fun e f => x ∈ f.names → RefersTo e.variables x) ?_ ?_ h hx
  · intro lhs rhs l r hl hr hlt
    rcases List.mem_append.mp hlt with hxl | hxr
    · exact (lhs.refersTo_of_toTerm hl hxl).union_left
    · exact (rhs.refersTo_of_toTerm hr hxr).union_right
  · intro e f _ ih hinner
    exact ih hinner

end Expr

/-! ### Commands -/

namespace Command

/-- The term of the place that a command writes names the variable that the command defines, or a
field behind a variable that it reads. -/
theorem mem_defs_or_refersTo_of_target? {c : Command} {place : LValue} {t : Term} {x : String}
    (htarget : c.target? = some place) (huses : ∀ y ∈ place.readVariables, y ∈ c.uses)
    (h : place.toTerm = .ok t) (hx : x ∈ t.names) : x ∈ c.defs ∨ RefersTo c.uses x := by
  rcases LValue.definedVariable?_or_isFieldBehind_of_toTerm h hx with hself | hfield
  · have hbind : c.target?.bind LValue.definedVariable? = some x := by
      rw [htarget, Option.bind_some, hself]
    left
    unfold defs
    split
    · cases htarget
    · simp [hbind]
  · exact .inr (.inr (hfield.mono huses))

/-- What a command establishes speaks of variables that the command defines or reads, or of fields
behind variables that it reads. There is one case for each way in which a fact comes from a
command. -/
theorem mem_defs_or_refersTo_of_mem_facts {c : Command} {f : Formula} {x : String}
    (h : f ∈ c.facts) (hx : x ∈ f.names) : x ∈ c.defs ∨ RefersTo c.uses x := by
  cases establishes_of_mem_facts h with
  | assign hl hr =>
    rcases List.mem_append.mp hx with hxl | hxr
    · refine mem_defs_or_refersTo_of_target? rfl (fun y hy => ?_) hl hxl
      exact ExtTreeSet.mem_union_iff.mpr (.inl hy)
    · exact .inr (Expr.refersTo_of_toTerm hr hxr).union_right
  | @alloc array size n hn =>
    rcases List.mem_append.mp hx with harray | hsize
    · rw [List.mem_singleton.mp harray]
      exact .inl (by simp [defs, target?, LValue.var, LValue.definedVariable?, LValue.host])
    · exact .inr (Expr.refersTo_of_toTerm hn hsize).union_right
  | @merge place callee a b result hcallee hresult =>
    have huses : ∀ y, y ∈ place.readVariables ∨ y = a.name ∨ y = b.name →
        y ∈ (call (some place) callee [.var a, .var b]).uses := by
      rintro y (hy | rfl | rfl)
      · simp [uses, hy]
      · simp [uses, Expr.mem_variables_var]
      · simp [uses, Expr.mem_variables_var]
    have hterm : ∀ y ∈ result.names, y ∈ (call (some place) callee [.var a, .var b]).defs ∨
        RefersTo (call (some place) callee [.var a, .var b]).uses y := fun y hy =>
      mem_defs_or_refersTo_of_target? rfl (fun z hz => huses z (.inl hz)) hresult hy
    -- The result stands on the left of both equations.
    rcases List.mem_append.mp hx with hfirst | hsecond
    · rcases List.mem_append.mp hfirst with hr | ha
      · exact hterm x hr
      · exact .inr (.inl (huses x (.inr (.inl (List.mem_singleton.mp ha)))))
    · rcases List.mem_append.mp hsecond with hr | hb
      · exact hterm x hr
      · exact .inr (.inl (huses x (.inr (.inr (List.mem_singleton.mp hb)))))
  | assume hread => exact .inr (Expr.refersTo_of_conditionReading hread hx)

/-- Facts speak only of variables that the def-use graph follows at their node: each variable of a
fact is one that the command defines or reads, or it is a field behind a pointer that the command
reads. -/
theorem facts_speak_of_tracked_variables {c : Command} {f : Formula} (hf : f ∈ c.facts)
    {x : String} (hx : x ∈ f.names) :
    x ∈ c.defs ∪ c.uses ∨ ∃ base field, base ∈ c.uses ∧ x = base ++ "->" ++ field := by
  rcases mem_defs_or_refersTo_of_mem_facts hf hx with hdef | huse | hfield
  · exact .inl (ExtTreeSet.mem_union_iff.mpr (.inl hdef))
  · exact .inl (ExtTreeSet.mem_union_iff.mpr (.inr huse))
  · exact .inr hfield

/-- A store through a pointer of a sum of a size and a variable:
`*p := (int) sizeof((char) q->len) + i`. -/
def storeOfSum : Command :=
  .assign (.mem (.var (.localInt "p")))
    (.binary .add (.cast .int (.sizeOf (.cast .char (.lval (.arrow (.globalInt "q") "len")))))
      (.var (.localInt "i")))

/-- The store establishes `p->this = (sizeof(q->len) + i)`, which names two fields behind variables
that are read, and one variable that is read itself. -/
theorem variables_of_storeOfSum :
    let f : Formula := .eq (.var "p->this") (.add (.sizeOf (.var "q->len")) (.var "i"))
    f ∈ storeOfSum.facts ∧ f.names = ["p->this", "q->len", "i"] ∧ storeOfSum.defs = ∅ ∧
      ∀ x ∈ f.names, x ∈ storeOfSum.defs ∪ storeOfSum.uses ∨
        ∃ base field, base ∈ storeOfSum.uses ∧ x = base ++ "->" ++ field := by
  intro f
  have hf : f ∈ storeOfSum.facts := by decide +kernel
  exact ⟨hf, rfl, rfl, fun x hx => facts_speak_of_tracked_variables hf hx⟩

end Command

end AlarmDischarge
