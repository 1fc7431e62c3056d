import AlarmDischarge.Proofs.Condition
import AlarmDischarge.Proofs.DefUse.Loads

/-!
# `AlarmDischarge.Proofs.Allocation`: the length of an array in the condition of an access

An array gets its length where it is allocated. The condition of an access of the array says what
the length is if the allocation (`Alloc`) lies in the slice at the access (`slice`). This module
says when it does:

* `Command.arraySize_mem_facts_iff`: only an allocation establishes a length;
* `Verifier.mem_conjuncts_condition`: a condition joins the obligation and the facts that arrive;
* `Verifier.allocation_in_condition`: the condition says the length exactly if an allocation with
  that length lies in the slice; if the access loads the array, this holds of every allocation from
  which a path leads to the access.
-/

set_option autoImplicit false

namespace AlarmDischarge

open Std

/-! ### Lengths among the facts -/

namespace Command

/-- Only an allocation establishes a length of an array: the one that it allocates. -/
theorem arraySize_mem_facts_iff {c : Command} {x : String} {t : Term} :
    .eq (.arraySize (.var x)) t ∈ c.facts ↔
      ∃ array size, c = .alloc (.var array) size ∧ array.name = x ∧ size.toTerm = .ok t := by
  rw [mem_facts_iff_establishes]
  constructor
  · intro h
    generalize hf : Formula.eq (.arraySize (.var x)) t = f at h
    cases h with
    | assign hl hr =>
      -- What is assigned to is a variable, and no length.
      obtain ⟨name, rfl⟩ := LValue.exists_eq_var_of_toTerm hl
      cases hf
    | alloc hn =>
      cases hf
      exact ⟨_, _, rfl, rfl, hn⟩
    | merge hcallee hresult => cases hf
    | assume hread =>
      rw [← hf] at hread
      cases Expr.isComparison_of_conditionReading hread
  · rintro ⟨array, size, rfl, rfl, hsize⟩
    exact .alloc hsize

end Command

namespace Program.View

variable {v : View} {n : Node} {x : String} {t : Term}

/-- A node allocates an array, of a length that has a term. -/
def AllocatesAt (v : View) (n : Node) (x : String) (t : Term) : Prop :=
  ∃ array size, v.commandAt n = some (.alloc (.var array) size) ∧ array.name = x ∧
    size.toTerm = .ok t

/-- An allocation defines its array. -/
theorem AllocatesAt.definesAt (h : v.AllocatesAt n x t) : v.DefinesAt n x := by
  obtain ⟨array, size, hc, rfl, -⟩ := h
  exact ⟨_, hc, by simp [Command.defs, Command.target?, LValue.var, LValue.definedVariable?,
    LValue.host]⟩

/-- The length of an array is generated where the array is allocated. -/
theorem allocatesAt_iff :
    v.AllocatesAt n x t ↔
      .eq (.arraySize (.var x)) t ∈ Propagation.generated v.commandAt n := by
  rw [Propagation.mem_generated]
  constructor
  · rintro ⟨array, size, hc, hname, hsize⟩
    exact ⟨_, hc, Command.arraySize_mem_facts_iff.mpr ⟨array, size, rfl, hname, hsize⟩⟩
  · rintro ⟨c, hc, hfact⟩
    obtain ⟨array, size, rfl, hname, hsize⟩ := Command.arraySize_mem_facts_iff.mp hfact
    exact ⟨array, size, hc, hname, hsize⟩

end Program.View

/-! ### Parts of a condition -/

namespace Formula

/-- The formulas that a formula joins, from left to right. -/
def conjuncts : Formula → List Formula
  | and f g => f.conjuncts ++ g.conjuncts
  | f => [f]

theorem conjuncts_conjoin {first : Formula} {rest : List Formula} :
    (first.conjoin rest).conjuncts = first.conjuncts ++ rest.flatMap conjuncts := by
  unfold conjoin
  induction rest generalizing first with
  | nil => simp
  | cons f rest ih =>
    rw [List.foldl_cons, ih]
    simp [conjuncts]

end Formula

/-- What a command establishes joins nothing. -/
theorem Command.conjuncts_of_mem_facts {c : Command} {f : Formula} (h : f ∈ c.facts) :
    f.conjuncts = [f] := by
  rcases facts_cases h with heq | ⟨_, -, hread⟩
  · cases heq with
    | eq lhs rhs => rfl
    | choice lhs first second => rfl
  · cases Expr.isComparison_of_conditionReading hread with
    | lt lhs rhs => rfl
    | not inner => rfl

namespace Verifier

variable {v : Verifier} {g : NodeGraph} {p : Program.View} {alarm : Alarm} {f : Formula}

/-- The facts of a slice come from commands. -/
theorem exists_command_of_mem_sliceFacts (hf : f ∈ v.sliceFacts g p alarm) :
    ∃ c : Command, f ∈ c.facts := by
  obtain ⟨m, -, hgen⟩ := mem_sliceFacts.mp hf
  obtain ⟨c, -, hc⟩ := Propagation.mem_generated.mp hgen
  exact ⟨c, hc⟩

/-- The condition of an alarm joins the parts of its obligation and the facts that arrive, in their
order. -/
theorem conjuncts_condition :
    (v.condition g p alarm).conjuncts =
      alarm.hazard.obligation.conjuncts ++
        ((v.propagation g p alarm).table.factsAt alarm.node).toList := by
  have hfacts : ∀ h ∈ ((v.propagation g p alarm).table.factsAt alarm.node).toList,
      h.conjuncts = [h] := by
    intro h hh
    obtain ⟨c, hc⟩ :=
      exists_command_of_mem_sliceFacts (mem_sliceFacts_of_mem (ExtTreeSet.mem_toList.mp hh))
    exact Command.conjuncts_of_mem_facts hc
  unfold condition Alarm.condition
  rw [Formula.conjuncts_conjoin, List.flatMap_congr hfacts, List.flatMap_singleton']

theorem mem_conjuncts_condition :
    f ∈ (v.condition g p alarm).conjuncts ↔
      f ∈ alarm.hazard.obligation.conjuncts ∨
        f ∈ (v.propagation g p alarm).table.factsAt alarm.node := by
  rw [conjuncts_condition, List.mem_append, ExtTreeSet.mem_toList]

/-- When the propagation has converged, the length of an array arrives at an alarm exactly if an
allocation with that length lies in the slice: no command establishes the opposite. -/
theorem arraySize_arrives_iff {x : String} {t : Term}
    (hconv : (v.propagation g p alarm).converged = true) :
    .eq (.arraySize (.var x)) t ∈ (v.propagation g p alarm).table.factsAt alarm.node ↔
      ∃ m ∈ (v.sliceAt g alarm).nodes, p.AllocatesAt m x t := by
  simp only [Program.View.allocatesAt_iff]
  rw [← mem_sliceFacts]
  refine ⟨mem_sliceFacts_of_mem, fun hf => mem_of_mem_sliceFacts hconv hf fun hopp => ?_⟩
  obtain ⟨c, hc⟩ := exists_command_of_mem_sliceFacts hopp
  exact Command.negation_not_mem_facts (.eq _ _) hc

/-- A definition of a variable that the node of an alarm loads lies in the slice at the alarm, if it
is in the procedure of the alarm and a path carries it there. -/
theorem mem_nodes_sliceAt_of_carriesTo {x : String} {d : Node} (hdefines : p.DefinesAt d x)
    (hloads : p.LoadsAt alarm.node x) (hproc : d.procedure = alarm.node.procedure)
    (hpath : p.CarriesTo x d alarm.node) : d ∈ (v.sliceAt p.defUse alarm).nodes := by
  refine NodeGraph.mem_nodes_slice.mpr ?_
  rcases hpath.reaches with rfl | hreach
  · -- A path that goes nowhere: the slice holds the node of its alarm.
    exact NodeGraph.self_mem_sliceNodes
  · refine NodeGraph.mem_sliceNodes_of_scope NodeGraph.self_mem_sliceNodes
      (hreach.mem_edges_defUse hdefines (Program.View.loadsAt_iff.mp hloads)) ?_
    simp [NodeGraph.scope, Node.sameProcedure, hproc]

/-- The condition of an access of an array, in a verdict for which the propagation has converged on
the def-use graph. It asks that the subscript is below the length of the array. It says what the
length is exactly if an allocation with that length lies in the slice at the access. And if the
command of the access loads the array or a part of it, at any depth, then it says the length from
each allocation in the same procedure from which a path leads to the access on which no other node
writes the whole array. -/
theorem allocation_in_condition {μ : Type} (v : Verifier) (p : Program.View)
    (memories : Memories μ) (alarm : Alarm) (array : Variable) (subscript : Expr) (loc : Location)
    (i : Term) (hhazard : alarm.hazard = .element (.var array) subscript loc)
    (hsubscript : subscript.toTerm = .ok i)
    (hconv : (v.verdict p.defUse p memories alarm).converged = true) :
    (v.verdict p.defUse p memories alarm).condition =
        some (v.condition p.defUse p alarm).text ∧
    .lt i (.arraySize (.var array.name)) ∈ (v.condition p.defUse p alarm).conjuncts ∧
    (∀ t, .eq (.arraySize (.var array.name)) t ∈ (v.condition p.defUse p alarm).conjuncts ↔
      ∃ m ∈ (v.sliceAt p.defUse alarm).nodes, p.AllocatesAt m array.name t) ∧
    (p.LoadsAt alarm.node array.name → ∀ d t, d.procedure = alarm.node.procedure →
      p.AllocatesAt d array.name t → p.CarriesTo array.name d alarm.node →
      .eq (.arraySize (.var array.name)) t ∈ (v.condition p.defUse p alarm).conjuncts) := by
  have hobligation : alarm.hazard.obligation = .lt i (.arraySize (.var array.name)) := by
    rw [hhazard]
    simp only [Hazard.obligation, Hazard.bound?, LValue.var, LValue.toTerm, hsubscript]
    rfl
  have hlength : ∀ t,
      .eq (.arraySize (.var array.name)) t ∈ (v.condition p.defUse p alarm).conjuncts ↔
        ∃ m ∈ (v.sliceAt p.defUse alarm).nodes, p.AllocatesAt m array.name t := by
    intro t
    -- The obligation is a comparison by order, so that an equation can only be a fact.
    rw [mem_conjuncts_condition, arraySize_arrives_iff hconv, hobligation]
    simp [Formula.conjuncts]
  refine ⟨rfl, ?_, hlength, ?_⟩
  · rw [mem_conjuncts_condition, hobligation]
    exact .inl (by simp [Formula.conjuncts])
  · intro hloads d t hproc halloc hpath
    exact (hlength t).mpr
      ⟨d, mem_nodes_sliceAt_of_carriesTo halloc.definesAt hloads hproc hpath, halloc⟩

/-! ### An allocation and an access

`a := alloc([5])`, and then a command that has to do with `a[i]`. -/

/-- Allocates an array and goes on to a command. -/
def accessAfterAlloc (access : Command) : Program :=
  Program.empty
    |>.addCommand ⟨"main", 0⟩ (.alloc (.var (.localInt "a")) (.int 5))
    |>.addCommand ⟨"main", 1⟩ access
    |>.addPath [⟨"main", 0⟩, ⟨"main", 1⟩]

/-- The allocation is carried to the command. -/
theorem carriesTo_accessAfterAlloc (access : Command) :
    (accessAfterAlloc access).view.AllocatesAt ⟨"main", 0⟩ "a" (.int 5) ∧
      (accessAfterAlloc access).view.CarriesTo "a" ⟨"main", 0⟩ ⟨"main", 1⟩ := by
  have hcommand : (accessAfterAlloc access).view.commandAt ⟨"main", 0⟩ =
      some (.alloc (.var (.localInt "a")) (.int 5)) := rfl
  have hedge : ⟨⟨"main", 0⟩, ⟨"main", 1⟩⟩ ∈ (accessAfterAlloc access).view.flow.edges :=
    NodeGraph.mem_edges_addEdge.mpr (.inl rfl)
  refine ⟨⟨_, _, hcommand, rfl, rfl⟩, [⟨"main", 1⟩], List.isChain_pair.mpr hedge, rfl, ?_⟩
  intro n hn _
  exact .inr (List.mem_singleton.mp hn)

/-- The element that the command has to do with. -/
def accessedElement : LValue := .element (.localInt "a") (.var (.localInt "i"))

/-- The alarm at the command. -/
def accessAlarm : Alarm where
  node := ⟨"main", 1⟩
  hazard := .element (.var (.localInt "a")) (.var (.localInt "i")) {}
  status := .unproven

/-- If the command stores to the element, or calls what the element points to, then the array is not
loaded. The condition does not say the length, although the allocation is carried to the access. -/
theorem condition_without_length :
    let store := (accessAfterAlloc (.assign accessedElement (.int 0))).view
    let call := (accessAfterAlloc (.call none (.lval accessedElement) [])).view
    ((verdict (μ := Unit) {} store.defUse store ⟨∅, ∅⟩ accessAlarm).converged = true ∧
      store.AllocatesAt ⟨"main", 0⟩ "a" (.int 5) ∧ store.CarriesTo "a" ⟨"main", 0⟩ ⟨"main", 1⟩ ∧
      .eq (.arraySize (.var "a")) (.int 5) ∉
        (condition {} store.defUse store accessAlarm).conjuncts) ∧
    (verdict (μ := Unit) {} call.defUse call ⟨∅, ∅⟩ accessAlarm).converged = true ∧
      call.AllocatesAt ⟨"main", 0⟩ "a" (.int 5) ∧ call.CarriesTo "a" ⟨"main", 0⟩ ⟨"main", 1⟩ ∧
      .eq (.arraySize (.var "a")) (.int 5) ∉
        (condition {} call.defUse call accessAlarm).conjuncts := by
  intro store call
  obtain ⟨hstore, hstorePath⟩ := carriesTo_accessAfterAlloc (.assign accessedElement (.int 0))
  obtain ⟨hcall, hcallPath⟩ := carriesTo_accessAfterAlloc (.call none (.lval accessedElement) [])
  refine ⟨⟨?_, hstore, hstorePath, ?_⟩, ?_, hcall, hcallPath, ?_⟩
  · decide +kernel
  · decide +kernel
  · decide +kernel
  · decide +kernel

/-- If the command stores to an element of another array whose subscript is the element, then the
array is loaded, and the condition says the length. -/
theorem condition_with_length :
    let access := Command.assign (.element (.localInt "b") (.lval accessedElement)) (.int 0)
    let p := (accessAfterAlloc access).view
    (verdict (μ := Unit) {} p.defUse p ⟨∅, ∅⟩ accessAlarm).converged = true ∧
      p.LoadsAt ⟨"main", 1⟩ "a" ∧
      .eq (.arraySize (.var "a")) (.int 5) ∈ (condition {} p.defUse p accessAlarm).conjuncts := by
  intro access p
  have hconv : (verdict (μ := Unit) {} p.defUse p ⟨∅, ∅⟩ accessAlarm).converged = true := by
    decide +kernel
  have haccess : p.commandAt ⟨"main", 1⟩ = some access := by decide +kernel
  have hload : accessedElement ∈ access.loads := by decide +kernel
  have hloads : p.LoadsAt ⟨"main", 1⟩ "a" := ⟨access, haccess, _, _, hload, rfl⟩
  obtain ⟨halloc, hpath⟩ := carriesTo_accessAfterAlloc access
  have hlaw := allocation_in_condition {} p ⟨∅, ∅⟩ accessAlarm (.localInt "a") _ _ _ rfl rfl hconv
  exact ⟨hconv, hloads, hlaw.2.2.2 hloads ⟨"main", 0⟩ _ rfl halloc hpath⟩

end Verifier

end AlarmDischarge
