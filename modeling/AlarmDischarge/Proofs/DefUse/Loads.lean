import AlarmDischarge.Proofs.DefUse.Paths

/-!
# `AlarmDischarge.Proofs.DefUse.Loads`: what commands load, and the definitions that reach it

A command reads a variable if it loads the variable or a part of it, at any depth of an expression.
To store to a part of a variable is not to load it: only what it takes to find the part is loaded.

* `Command.mem_uses_iff`: what is read (`uses`) is what is loaded (one case for each form of syntax);
* `Program.View.CarriesTo.reaches`: a path on which only its ends overwrite a variable can be cut to
  one on which nothing in between does;
* `Program.View.Reaches.mem_edges_defUse`: a definition that reaches a reader along a path is linked
  to it in the def-use graph.
-/

set_option autoImplicit false

namespace AlarmDischarge

open Std

/-! ### What a command loads

What is loaded are the places that stand as values in an expression, and those that stand in the
subscripts and addresses by which a place is found. -/

mutual

/-- The places that are loaded to evaluate an expression. -/
def Expr.loads : Expr → List LValue
  | .const _ => []
  | .sizeOfType _ => []
  | .lval place => place :: place.addressLoads
  | .sizeOf e => e.loads
  | .unary _ e => e.loads
  | .binary _ lhs rhs => lhs.loads ++ rhs.loads
  | .cast _ e => e.loads
  | .addrOf place => place.addressLoads
  | .startOf place => place.addressLoads

/-- The places that are loaded to find a place. -/
def LValue.addressLoads : LValue → List LValue
  | .mk host offset => host.loads ++ offset.loads

/-- The places that are loaded to find a host. -/
def Host.loads : Host → List LValue
  | .var _ => []
  | .mem address => address.loads

/-- The places that are loaded to evaluate the subscripts of a chain of steps. -/
def Offset.loads : Offset → List LValue
  | .none => []
  | .field _ rest => rest.loads
  | .index subscript rest => subscript.loads ++ rest.loads

end

/-- The places that a command loads. The callee of a call is not looked at. -/
def Command.loads : Command → List LValue
  | .assign place value => place.addressLoads ++ value.loads
  | .alloc place size => place.addressLoads ++ size.loads
  | .call result _ args => result.elim [] LValue.addressLoads ++ args.flatMap Expr.loads
  | .fetch place => place.addressLoads
  | .assume condition => condition.loads
  | .ret value => value.elim [] Expr.loads
  | .skip => []

/-- Among some places is a variable of a given name, or a part of it. -/
def LValue.Among (x : String) (places : List LValue) : Prop :=
  ∃ y offset, .mk (.var y) offset ∈ places ∧ y.name = x

section

variable {x : String}

@[simp]
theorem LValue.among_nil : ¬LValue.Among x [] := by
  simp [LValue.Among]

@[simp]
theorem LValue.among_append {places others : List LValue} :
    LValue.Among x (places ++ others) ↔ LValue.Among x places ∨ LValue.Among x others := by
  simp only [LValue.Among, List.mem_append, or_and_right, exists_or]

@[simp]
theorem LValue.among_cons_var {y : Variable} {offset : Offset} {places : List LValue} :
    LValue.Among x (.mk (.var y) offset :: places) ↔ y.name = x ∨ LValue.Among x places := by
  constructor
  · rintro ⟨z, o, hmem, hname⟩
    rcases List.mem_cons.mp hmem with heq | hmem
    · cases heq
      exact .inl hname
    · exact .inr ⟨z, o, hmem, hname⟩
  · rintro (hname | ⟨z, o, hmem, hname⟩)
    · exact ⟨y, offset, List.mem_cons_self, hname⟩
    · exact ⟨z, o, List.mem_cons_of_mem _ hmem, hname⟩

@[simp]
theorem LValue.among_cons_mem {address : Expr} {offset : Offset} {places : List LValue} :
    LValue.Among x (.mk (.mem address) offset :: places) ↔ LValue.Among x places := by
  simp [LValue.Among]

theorem LValue.among_flatMap {α : Type} {xs : List α} {places : α → List LValue} :
    LValue.Among x (xs.flatMap places) ↔ ∃ a ∈ xs, LValue.Among x (places a) := by
  induction xs with
  | nil => simp
  | cons a xs ih => simp [ih]

mutual

/-- An expression reads the variables that it loads, as a whole or in part. -/
theorem Expr.mem_variables_iff (e : Expr) : x ∈ e.variables ↔ LValue.Among x e.loads := by
  cases e with
  | const c => simp [Expr.variables, Expr.loads]
  | sizeOfType t => simp [Expr.variables, Expr.loads]
  | lval place => exact place.mem_accessVariables_iff
  | sizeOf e => exact e.mem_variables_iff
  | unary op e => exact e.mem_variables_iff
  | binary op lhs rhs =>
    rw [Expr.variables, Expr.loads, ExtTreeSet.mem_union_iff, LValue.among_append,
      lhs.mem_variables_iff, rhs.mem_variables_iff]
  | cast t e => exact e.mem_variables_iff
  -- To take an address, only what it takes to find the place is loaded.
  | addrOf place => exact place.mem_readVariables_iff
  | startOf place => exact place.mem_readVariables_iff

theorem LValue.mem_accessVariables_iff (place : LValue) :
    x ∈ place.accessVariables ↔ LValue.Among x (place :: place.addressLoads) := by
  cases place with
  | mk host offset =>
    rw [LValue.accessVariables, LValue.addressLoads, ExtTreeSet.mem_union_iff,
      offset.mem_variables_iff]
    cases host with
    -- The place itself is meant, and to load it is to read its host.
    | var y => simp [Host.accessVariables, Host.loads]
    | mem address => simp [Host.accessVariables, Host.loads, address.mem_variables_iff]

theorem LValue.mem_readVariables_iff (place : LValue) :
    x ∈ place.readVariables ↔ LValue.Among x place.addressLoads := by
  cases place with
  | mk host offset =>
    rw [LValue.readVariables, LValue.addressLoads, ExtTreeSet.mem_union_iff, LValue.among_append,
      host.mem_readVariables_iff, offset.mem_variables_iff]

theorem Host.mem_readVariables_iff (host : Host) :
    x ∈ host.readVariables ↔ LValue.Among x host.loads := by
  cases host with
  | var y => simp [Host.readVariables, Host.loads]
  | mem address => exact address.mem_variables_iff

theorem Offset.mem_variables_iff (offset : Offset) :
    x ∈ offset.variables ↔ LValue.Among x offset.loads := by
  cases offset with
  | none => simp [Offset.variables, Offset.loads]
  | field name rest => exact rest.mem_variables_iff
  | index subscript rest =>
    rw [Offset.variables, Offset.loads, ExtTreeSet.mem_union_iff, LValue.among_append,
      subscript.mem_variables_iff, rest.mem_variables_iff]

end

/-- A command reads exactly the variables that it loads, as a whole or in part. -/
theorem Command.mem_uses_iff {c : Command} : x ∈ c.uses ↔ LValue.Among x c.loads := by
  cases c with
  | assign place value =>
    rw [Command.uses, Command.loads, ExtTreeSet.mem_union_iff, LValue.among_append,
      place.mem_readVariables_iff, value.mem_variables_iff]
  | alloc place size =>
    rw [Command.uses, Command.loads, ExtTreeSet.mem_union_iff, LValue.among_append,
      place.mem_readVariables_iff, size.mem_variables_iff]
  | call result callee args =>
    have hresult : x ∈ result.elim ∅ LValue.readVariables ↔
        LValue.Among x (result.elim [] LValue.addressLoads) := by
      cases result with
      | none => simp
      | some place => exact place.mem_readVariables_iff
    rw [Command.uses, Command.loads, FiniteSet.mem_foldl_union, LValue.among_append, hresult,
      LValue.among_flatMap]
    simp only [Expr.mem_variables_iff]
  | fetch place => exact place.mem_readVariables_iff
  | assume condition => exact condition.mem_variables_iff
  | ret value =>
    cases value with
    | none => simp [Command.uses, Command.loads]
    | some value => exact value.mem_variables_iff
  | skip => simp [Command.uses, Command.loads]

end

/-! ### Paths to a load -/

namespace Program.View

variable {v : View} {d n p u : Node} {x : String}

/-- The command at a node, if there is one to be seen, loads a variable or a part of it. -/
def LoadsAt (v : View) (n : Node) (x : String) : Prop :=
  ∃ c, v.commandAt n = some c ∧ LValue.Among x c.loads

theorem loadsAt_iff : v.LoadsAt n x ↔ v.ReadsAt n x := by
  unfold LoadsAt ReadsAt
  simp only [Command.mem_uses_iff]

/-- A path of control flow of any length, on which no node but its ends overwrites a variable. -/
def CarriesTo (v : View) (x : String) (d u : Node) : Prop :=
  ∃ rest : List Node,
    (d :: rest).IsChain (fun m n => ⟨m, n⟩ ∈ v.flow.edges) ∧ (d :: rest).getLast? = some u ∧
      ∀ n ∈ rest, v.OverwritesAt n x → n = d ∨ n = u

/-- A path may begin one node earlier if its first node does not overwrite the variable. -/
theorem Reaches.cons (hedge : ⟨p, n⟩ ∈ v.flow.edges) (hn : ¬v.OverwritesAt n x)
    (h : v.Reaches x n u) : v.Reaches x p u := by
  obtain ⟨between, hchain, hbetween⟩ := h
  refine ⟨n :: between, List.isChain_cons_cons.mpr ⟨hedge, hchain⟩, ?_⟩
  intro m hm
  rcases List.mem_cons.mp hm with rfl | hm
  · exact hn
  · exact hbetween m hm

/-- The rest of a path on which only `d` and `u` overwrite the variable: it is at `u` already, or
`d` lies on it and the path can begin there, or nothing on it overwrites the variable. -/
theorem reaches_of_isChain {rest : List Node}
    (hchain : (p :: rest).IsChain (fun m n => ⟨m, n⟩ ∈ v.flow.edges))
    (hlast : (p :: rest).getLast? = some u)
    (hover : ∀ n ∈ rest, v.OverwritesAt n x → n = d ∨ n = u) :
    p = u ∨ v.Reaches x d u ∨ v.Reaches x p u := by
  induction rest generalizing p with
  | nil => exact .inl (by simpa using hlast)
  | cons n rest ih =>
    obtain ⟨hedge, hchain'⟩ := List.isChain_cons_cons.mp hchain
    have hlast' : (n :: rest).getLast? = some u := by
      rwa [List.getLast?_cons_cons] at hlast
    rcases ih hchain' hlast' fun m hm => hover m (List.mem_cons_of_mem n hm) with
      rfl | hd | hn
    · exact .inr (.inr (.edge hedge))
    · exact .inr (.inl hd)
    · by_cases hwrite : v.OverwritesAt n x
      · -- The next node is one of the two that may overwrite the variable: cut the path there.
        rcases hover n List.mem_cons_self hwrite with rfl | rfl
        · exact .inr (.inl hn)
        · exact .inr (.inr (.edge hedge))
      · exact .inr (.inr (hn.cons hedge hwrite))

/-- A path on which no node but its ends overwrites a variable can be cut to one on which no node
between its ends does, unless it goes nowhere. -/
theorem CarriesTo.reaches (h : v.CarriesTo x d u) : d = u ∨ v.Reaches x d u := by
  obtain ⟨rest, hchain, hlast, hover⟩ := h
  exact (reaches_of_isChain hchain hlast hover).imp_right or_self_iff.mp

/-- A definition that reaches a reader is linked to it in the def-use graph. -/
theorem Reaches.mem_edges_defUse (h : v.Reaches x d u) (hdefines : v.DefinesAt d x)
    (hreads : v.ReadsAt u x) : ⟨d, u⟩ ∈ v.defUse.edges := by
  obtain ⟨p, hedge, -⟩ := Reaching.mem_entry.mp (mem_entry_exits_iff.mpr ⟨hdefines, h⟩)
  unfold defUse
  rw [NodeGraph.mem_edges_ofLists, mem_flatMap_sources, mem_sources_exits_iff]
  exact ⟨(v.flow.closed _ hedge).2, x, hdefines, hreads, h⟩

end Program.View

end AlarmDischarge
